import Mathlib.Data.List.Pairwise
import SessionBuffers.Proofs.Notes
import SessionBuffers.Proofs.Stages

/-!
# Keys are fresh

As long as fewer numbers have been drawn from a table than there are words, and nobody has set its
next number, every number drawn is greater than all before it (`Fresh.ascending`). So a key is given
to one allocation only, no allocation finds its key in use, and whoever finds a buffer by its key
finds the one storage that was set up for that key, however old the key is.
-/

namespace SessionBuffers

/-- Whether a note is of a number drawn. -/
def Note.isDrawn : Note → Bool
  | drawn _ _ => true
  | _ => false

/-- The key that an allocation has found to be in use, and with which it is bound to be refused. -/
def Allocation.Phase.duplicate? : Phase → Option Key
  | abandonRegistry _ (.duplicateKey key) | abandonTable _ (.duplicateKey key)
  | abandonContent _ (.duplicateKey key) | countFailure (.duplicateKey key)
  | reportFailure (.duplicateKey key) | ended (.refused (.duplicateKey key)) => some key
  | _ => none

/-- The buffer that a job has found by its key in the index of a table. -/
def Job.found? : Job → Option (TableRef × Handle)
  | lookingUp l (.lockContent b) | lookingUp l (.unlockTable b) | lookingUp l (.count b) =>
    some (l.table, ⟨l.key, b⟩)
  | lookingUp l (.ended (.guard g)) => some (l.table, g.handle)
  | freeing f (.checkOwner b) | freeing f (.lockContent b) | freeing f (.erase b)
  | freeing f (.forget b) | freeing f (.unlockRegistry b) | freeing f (.unlockTable b)
  | freeing f (.dispose b) | freeing f (.unlockContent b) => some (f.table, ⟨f.key, b⟩)
  | tearingDown d (.lockContent key b _) | tearingDown d (.erase key b _)
  | tearingDown d (.dispose key b _) | tearingDown d (.unlockContent key b _) =>
    some (d.table, ⟨key, b⟩)
  | _ => none

/-! ### Steps -/

section Step

variable {supply : Supply} {who : CallRef} {s s' : Store} {job next : Job} {instr : Instr Job}
  {t : TableRef} {g : Handle}

private theorem found_of_always (hr : instr.run supply who s = some (next, s'))
    (h : instr.Always fun next ↦ ∀ x, next.found? = some x → job.found? = some x)
    (hnext : next.found? = some (t, g)) :
    job.found? = some (t, g) ∨ (s.indexOf t)[g.key]? = some g.storage :=
  .inl (h.of_run hr (t, g) hnext)

/-- What a job has found after a step it had found before, or the index leads to it. -/
theorem Job.found?_step (hn : job.progress = .next instr)
    (hr : instr.run supply who s = some (next, s')) (hnext : next.found? = some (t, g)) :
    job.found? = some (t, g) ∨ (s.indexOf t)[g.key]? = some g.storage := by
  cases job with
  | lookingUp l phase =>
    obtain ⟨step, hp, rfl⟩ := Progress.map_eq_next.mp hn
    cases phase with
    | ended o => cases hp
    | find =>
      cases hp
      obtain ⟨-, rfl, -⟩ := Instr.run_readIndex.mp hr
      dsimp only [Function.comp] at hnext
      split at hnext
      · next b hb =>
        cases hnext
        exact .inr hb
      · cases hnext
    | _ =>
      cases hp
      exact found_of_always hr (by simp [Instr.map, Instr.Always, found?]) hnext
  | freeing f phase =>
    obtain ⟨step, hp, rfl⟩ := Progress.map_eq_next.mp hn
    cases phase with
    | ended o => cases hp
    | find =>
      cases hp
      obtain ⟨-, rfl, -⟩ := Instr.run_readIndex.mp hr
      dsimp only [Function.comp] at hnext
      split at hnext
      · next b hb =>
        cases hnext
        exact .inr hb
      · cases hnext
    | checkOwner b =>
      cases hp
      refine found_of_always hr (fun roster ↦ ?_) hnext
      dsimp only [Function.comp]
      split <;> simp [found?]
    | _ =>
      cases hp
      exact found_of_always hr (by simp [Instr.map, Instr.Always, found?]) hnext
  | tearingDown d phase =>
    have hresume (w : Teardown.Sweep) : found? (.tearingDown d (.resume w)) = none := by
      unfold Teardown.Phase.resume
      split <;> rfl
    obtain ⟨step, hp, rfl⟩ := Progress.map_eq_next.mp hn
    cases phase with
    | ended o => cases hp
    | find key w =>
      cases hp
      obtain ⟨-, rfl, -⟩ := Instr.run_readIndex.mp hr
      dsimp only [Function.comp] at hnext
      split at hnext
      · next b hb =>
        cases hnext
        exact .inr hb
      · cases hnext
    | drain first =>
      cases hp
      exact found_of_always hr (fun keys ↦ by simp [hresume]) hnext
    | reportMissing key w | unlockContent key b w =>
      cases hp
      exact found_of_always hr (by simp [Instr.map, Instr.Always, hresume]) hnext
    | countReleased w =>
      cases hp
      refine found_of_always hr ?_ hnext
      dsimp only [Instr.map, Instr.Always]
      split <;> simp [found?]
    | _ =>
      cases hp
      exact found_of_always hr (by simp [Instr.map, Instr.Always, found?]) hnext
  | _ _ phase =>
    obtain ⟨step, -, rfl⟩ := Progress.map_eq_next.mp hn
    obtain ⟨x, -, rfl⟩ := Instr.run_map_eq_some.mp hr
    cases hnext

/-- An allocation finds its key in use when it is about to put it into the index. -/
theorem Allocation.duplicate?_step {a : Allocation} {phase next : Phase} {step : Instr Phase}
    {key : Key} (hp : a.progress phase = .next step)
    (hr : step.run supply who s = some (next, s')) (hnext : next.duplicate? = some key) :
    phase.duplicate? = some key ∨
      ∃ b, phase = .insert b key ∧ (s.indexOf a.table).contains key = true := by
  have hkept (h : step.Always fun next ↦ next.duplicate? = phase.duplicate?) :
      phase.duplicate? = some key := (h.of_run hr).symm.trans hnext
  cases phase with
  | ended o => cases hp
  | insert b k =>
    cases hp
    obtain ⟨-, ⟨hin, rfl, -⟩ | ⟨-, rfl, -⟩⟩ := Instr.run_insert.mp hr
    · cases hnext
      exact .inr ⟨b, rfl, hin⟩
    · cases hnext
  | checkLimits =>
    cases hp
    refine .inl (hkept fun limits ↦ ?_)
    dsimp only
    split <;> rfl
  | abandonRegistry b why | abandonTable b why | abandonContent b why | countFailure why
  | reportFailure why =>
    cases hp
    exact .inl (hkept (by cases why <;> rfl))
  | _ =>
    cases hp
    exact .inl (hkept (by simp [Instr.Always, Phase.duplicate?, unmet]))

/-- An allocation has drawn the key it has handed out. -/
theorem Job.Leaves.drawn_of_kept? {limits : TableRef → Limits} {notes : List Note}
    {a : Allocation} (hl : job.Leaves limits notes) (hk : job.kept? = some (a, g)) :
    .drawn a.table g.key.buffer ∈ notes := by
  unfold kept? at hk
  split at hk <;> cases hk <;> obtain ⟨-, -, rfl⟩ := hl <;> simp

/-- What an allocation has drawn by its end, and what it has ended with: a number of its table if it
was within the limits and got its storage and room for its key, and nothing otherwise. -/
theorem Allocation.Leaves.drawn {a : Allocation} {limits : Limits} {notes : List Note}
    {o : Outcome} (hl : a.Leaves limits notes (.ended o)) :
    (limits.permits a.user a.kernel = true ∧ .reserved true ∈ notes → ∃ id,
      notes.filter Note.isDrawn = [.drawn a.table id] ∧ ((∃ b, o = .handle ⟨⟨a.session, id⟩, b⟩) ∨
        o = .refused (.duplicateKey ⟨a.session, id⟩))) ∧
    (¬ (limits.permits a.user a.kernel = true ∧ .reserved true ∈ notes) →
      notes.filter Note.isDrawn = [] ∧ o = .refused a.unmet) := by
  cases o with
  | handle g =>
    obtain ⟨⟨session, id⟩, b⟩ := g
    obtain ⟨hpermits, rfl, rfl⟩ := hl
    exact ⟨fun _ ↦ ⟨id, rfl, .inl ⟨b, rfl⟩⟩, fun hnot ↦ absurd ⟨hpermits, by simp⟩ hnot⟩
  | refused why =>
    obtain ⟨⟨session, id⟩, rfl, hpermits, rfl, rfl⟩ |
      ⟨rfl, ⟨hpermits, rfl⟩ | ⟨-, rfl | rfl⟩⟩ := hl
    · exact ⟨fun _ ↦ ⟨id, rfl, .inr rfl⟩, fun hnot ↦ absurd ⟨hpermits, by simp⟩ hnot⟩
    · refine ⟨fun hmet ↦ ?_, fun _ ↦ ⟨rfl, rfl⟩⟩
      rw [hpermits] at hmet
      cases hmet.1
    · refine ⟨fun hmet ↦ ?_, fun _ ↦ ⟨rfl, rfl⟩⟩
      simp at hmet
    · refine ⟨fun hmet ↦ ?_, fun _ ↦ ⟨rfl, rfl⟩⟩
      simp at hmet
  | _ => exact hl.elim

end Step

/-! ### The numbers drawn from a table -/

/-- The first numbers in order, as words. -/
theorem BufferId.pairwise_lt_range {n : Nat} (hn : n ≤ 2 ^ 64) :
    ((List.range n).map fun k ↦ (⟨.ofNat k⟩ : BufferId)).Pairwise
      fun x y ↦ x.number < y.number := by
  rw [List.pairwise_map]
  refine List.pairwise_lt_range.imp_of_mem fun {i j} hi hj hlt ↦ ?_
  rw [List.mem_range] at hi hj
  rw [UInt64.lt_iff_toNat_lt, UInt64.toNat_ofNat', UInt64.toNat_ofNat']
  omega

namespace Service

variable {limits : List Limits} {supply : Supply} {s s' u : Service} {h k : History}
  {i j : CallRef} {t : TableRef} {a c : Allocation} {g b : Handle} {key : Key} {id : BufferId}

theorem mem_notesOf {n : Note} : n ∈ s.notesOf h i ↔ (i, n) ∈ s.notes h := by
  simp only [notesOf, ofCall, List.mem_filterMap, Option.ite_none_right_eq_some, Option.some.injEq]
  constructor
  · rintro ⟨⟨j, m⟩, hm, rfl, rfl⟩
    exact hm
  · exact fun hn ↦ ⟨(i, n), hn, rfl, rfl⟩

theorem nextIdOf_withTables (limits : List Limits) (t : TableRef) :
    (withTables limits).store.nextIdOf t = ⟨0⟩ := by
  cases h : limits[t]? <;> simp [withTables, Store.withTables, Store.nextIdOf, h]

/-- Whether nobody has set the next number of a table in a history from the start, and fewer
numbers have been drawn from it than there are words. -/
structure Fresh (limits : List Limits) (t : TableRef) (h : History) : Prop where
  unset : ∀ e ∈ h, ∀ id, e.2 ≠ .setNextId t id
  few : (drawnFrom t ((withTables limits).notes h)).length < 2 ^ 64

/-- What is fresh has been so before. -/
theorem Fresh.of_append (hf : Fresh limits t (h ++ k))
    (hr : (withTables limits).run? h = some u) : Fresh limits t h := by
  refine ⟨fun e he ↦ hf.unset e (List.mem_append_left k he), ?_⟩
  have hfew := hf.few
  rw [notes_append hr, drawnFrom_append, List.length_append] at hfew
  omega

/-- The numbers drawn are the first ones, in order. -/
theorem Fresh.drawn_eq (hf : Fresh limits t h) (hr : (withTables limits).run? h = some s) :
    drawnFrom t ((withTables limits).notes h) =
      (List.range (drawnFrom t ((withTables limits).notes h)).length).map fun k ↦ ⟨.ofNat k⟩ := by
  simpa [nextIdOf_withTables] using (numbers_of_notes hr hf.unset).1

/-- Every number drawn is greater than all before it. -/
theorem Fresh.ascending (hf : Fresh limits t h) (hr : (withTables limits).run? h = some s) :
    (drawnFrom t ((withTables limits).notes h)).Pairwise fun x y ↦ x.number < y.number := by
  rw [hf.drawn_eq hr]
  exact BufferId.pairwise_lt_range (Nat.le_of_lt hf.few)

/-- A number is drawn by one call. -/
theorem Fresh.unique (hf : Fresh limits t h) (hr : (withTables limits).run? h = some s)
    (hi : .drawn t id ∈ (withTables limits).notesOf h i)
    (hj : .drawn t id ∈ (withTables limits).notesOf h j) : i = j := by
  have hascending := hf.ascending hr
  rw [drawnFrom, List.pairwise_filterMap] at hascending
  by_contra hne
  have hapart : ((withTables limits).notes h).Pairwise fun n m ↦
      ∀ x, n.2.drawnFrom? t = some x → ∀ y, m.2.drawnFrom? t = some y → x ≠ y := by
    refine hascending.imp fun hlt x hx y hy he ↦ ?_
    rw [he] at hx
    exact absurd (hlt y hx y hy) (UInt64.lt_irrefl _)
  have hsymm : Std.Symm fun n m : CallRef × Note ↦
      ∀ x, n.2.drawnFrom? t = some x → ∀ y, m.2.drawnFrom? t = some y → x ≠ y :=
    ⟨fun n m h x hx y hy ↦ (h y hy x hx).symm⟩
  exact hapart.forall (mem_notesOf.mp hi) (mem_notesOf.mp hj) (by simpa using hne) id
    (by simp [Note.drawnFrom?]) id (by simp [Note.drawnFrom?]) rfl

/-! ### Keys and their storage -/

/-- An allocation has noted the number of the key it has handed out. -/
theorem drawn_of_kept? {job : Job} (hr : (withTables limits).run? h = some s)
    (hj : s.job? i = some job) (hk : job.kept? = some (a, g)) :
    .drawn a.table g.key.buffer ∈ (withTables limits).notesOf h i :=
  (Reachable.leaves hr hj).drawn_of_kept? hk

/-- A number of a table is in the key of one buffer of it. -/
theorem Fresh.keeps_unique (hf : Fresh limits a.table h)
    (hr : (withTables limits).run? h = some s) (hk : s.Keeps a g) (hkc : s.Keeps c b)
    (htable : c.table = a.table) (hid : b.key.buffer = g.key.buffer) : c = a ∧ b = g := by
  obtain ⟨i, call, hi, hkept⟩ := hk
  obtain ⟨j, other, hj, hkept'⟩ := hkc
  have hdrawn := drawn_of_kept? hr (job?_eq_some.mpr ⟨call, hi, rfl⟩) hkept
  have hdrawn' := drawn_of_kept? hr (job?_eq_some.mpr ⟨other, hj, rfl⟩) hkept'
  rw [htable, hid] at hdrawn'
  obtain rfl := hf.unique hr hdrawn hdrawn'
  cases hi.symm.trans hj
  cases hkept.symm.trans hkept'
  exact ⟨rfl, rfl⟩

/-- An allocation that has found its key in use has come to try to put it into the index when it
was there. -/
theorem exists_insert_of_duplicate? {phase : Allocation.Phase}
    (hr : (withTables limits).run? h = some s) (hj : s.job? i = some (.allocating a phase))
    (hdup : phase.duplicate? = some key) : ∃ before after u b, h = before ++ after ∧
      (withTables limits).run? before = some u ∧ u.job? i = some (.allocating a (.insert b key)) ∧
      (u.store.indexOf a.table).contains key = true := by
  obtain ⟨before, supply, after, u, v, last, instr, next, rfl, hu, -, -, hlast, hnot, hn, hrun, -,
    now, rfl, hnow⟩ := exists_step_of_job
      (P := fun job ↦ ∃ phase, job = .allocating a phase ∧ phase.duplicate? = some key)
      (fun _ _ _ hrequest ⟨_, hjob, hdup⟩ ↦ by
        subst hjob
        cases Job.ofRequest?_eq_some.mp hrequest
        cases hdup) hr hj ⟨phase, rfl, hdup⟩
  cases last <;> obtain ⟨step, hp, rfl⟩ := Progress.map_eq_next.mp hn <;>
    obtain ⟨x, hx, he⟩ := Instr.run_map_eq_some.mp hrun <;> cases he
  next earlier =>
  obtain hearlier | ⟨b, rfl, hin⟩ := Allocation.duplicate?_step hp hx hnow
  · exact absurd ⟨earlier, rfl, hearlier⟩ hnot
  · exact ⟨before, (supply, .step i) :: after, u, b, rfl, hu, hlast, hin⟩

/-- No allocation finds its key in use. -/
theorem Fresh.duplicate?_eq_none {phase : Allocation.Phase} (hf : Fresh limits t h)
    (hr : (withTables limits).run? h = some s) (hj : s.job? i = some (.allocating a phase))
    (htable : a.table = t) : phase.duplicate? = none := by
  rw [Option.eq_none_iff_forall_ne_some]
  intro key hdup
  obtain ⟨before, after, u, b, rfl, hu, hlast, hin⟩ := exists_insert_of_duplicate? hr hj hdup
  -- Whoever has put the key there has drawn the same number.
  have hbefore := hf.of_append hu
  obtain ⟨b', hb'⟩ := Index.contains_iff.mp hin
  obtain ⟨d, ⟨j, other, hother, hkept⟩, hd⟩ := (Reachable.sound ⟨before, hu⟩).kept hb'
  have hdrawn := drawn_of_kept? hu (job?_eq_some.mpr ⟨other, hother, rfl⟩) hkept
  obtain ⟨-, -, hnotes⟩ : a.Drew _ _ key [] := Reachable.leaves hu hlast
  rw [hd, htable] at hdrawn
  obtain rfl : i = j := hbefore.unique hu (by rw [hnotes, htable]; simp) hdrawn
  have hsame : other.job = .allocating a (.insert b key) := by
    simpa [job?, hother] using hlast
  rw [hsame] at hkept
  cases hkept

/-- A key that has left the index never enters it again. -/
theorem Fresh.never_returns (hf : Fresh limits a.table (h ++ k))
    (hu : (withTables limits).run? h = some u) (hr : u.run? k = some s) (hk : u.Keeps a g)
    (hout : (u.store.indexOf a.table)[g.key]? = none) :
    (s.store.indexOf a.table)[g.key]? = none := by
  have hreach : Reachable limits u := ⟨h, hu⟩
  have hreach' := hreach.run hr
  have hk' := hk.run hreach hr
  refine Option.eq_none_iff_forall_not_mem.mpr fun b hb ↦ ?_
  obtain ⟨c, hkc, htable⟩ := hreach'.sound.kept hb
  obtain ⟨-, hsame⟩ :=
    hf.keeps_unique (run?_append_eq_some.mpr ⟨u, hu, hr⟩) hk' hkc htable rfl
  have hin : (s.store.indexOf a.table)[g.key]? = some g.storage := by rw [← hsame]; exact hb
  obtain ⟨x, hx⟩ := hreach.isAt hk
  obtain ⟨y, hy⟩ := hreach'.isAt hk'
  have hle := hx.le hk hreach hr hy
  cases y with
  | live =>
    cases x with
    | live =>
      rw [hx.1] at hout
      cases hout
    | leaving | dead => exact absurd hle (by decide)
  | leaving | dead => exact hy.1 _ _ hin

/-- What a call has found by its key was put into the index of that table for that key. -/
theorem Reachable.keeps_of_found? {job : Job} (hs : Reachable limits s) (hj : s.job? i = some job)
    (hfound : job.found? = some (t, g)) : ∃ a, s.Keeps a g ∧ a.table = t := by
  have hall : s.Sound ∧ ∀ i job t g, s.job? i = some job → job.found? = some (t, g) →
      ∃ a, s.Keeps a g ∧ a.table = t := by
    refine hs.induct (P := fun u ↦ u.Sound ∧ ∀ i job t g, u.job? i = some job →
      job.found? = some (t, g) → ∃ a, u.Keeps a g ∧ a.table = t)
      ⟨sound_withTables limits, by simp [withTables, job?]⟩ ?_
    rintro u supply action u' ⟨hsound, hkept⟩ hallows hact
    have hd := does_of_act? hact
    refine ⟨hsound.of_does hallows hd, fun i job t g hj hfound ↦ ?_⟩
    have hthen : (∃ a, u.Keeps a g ∧ a.table = t) → ∃ a, u'.Keeps a g ∧ a.table = t := by
      rintro ⟨a, hk, ht⟩
      exact ⟨a, hk.of_does hsound hd, ht⟩
    obtain ⟨hold, -⟩ | ⟨request, -, hfresh, -⟩ | ⟨before, instr, -, hbefore, hn, hrun⟩ :=
      hd.job_cases hj
    · exact hthen (hkept i job t g hold hfound)
    · cases Job.ofRequest?_eq_some.mp hfresh <;> cases hfound
    · obtain hfound | hin := Job.found?_step hn hrun hfound
      · exact hthen (hkept i before t g hbefore hfound)
      · exact hthen (hsound.kept hin)
  exact hall.2 i job t g hj hfound

/-! ### Numbers and keys in a history -/

/-- Numbers are fresh, and an old key never leads to a newer buffer. In every history, an allocation
that has ended has drawn exactly one number of its table if it was within the limits and got its
storage and room for its key, and none otherwise; and a request for a number has drawn the one it
has answered. As long as nobody has set the next number of a table, and fewer numbers have been
drawn from it than there are words, the numbers drawn are the first ones in order, so each is
greater than all before it; no allocation has been refused because its key was in use; a key that
has left the index of the table has not come back; no two allocations of the table have been given
the same key; and whatever a lookup, a free or a teardown has found by a key is what the allocation
with that key was given. -/
theorem keys_never_return (hr : (withTables limits).run? h = some s) :
    (∀ i a o, s.job? i = some (.allocating a (.ended o)) →
      ((s.store.limitsOf a.table).permits a.user a.kernel = true ∧
          .reserved true ∈ (withTables limits).notesOf h i → ∃ id,
        ((withTables limits).notesOf h i).filter Note.isDrawn = [.drawn a.table id] ∧
          ((∃ b, o = .handle ⟨⟨a.session, id⟩, b⟩) ∨
            o = .refused (.duplicateKey ⟨a.session, id⟩))) ∧
      (¬ ((s.store.limitsOf a.table).permits a.user a.kernel = true ∧
          .reserved true ∈ (withTables limits).notesOf h i) →
        ((withTables limits).notesOf h i).filter Note.isDrawn = [] ∧ o = .refused a.unmet)) ∧
    (∀ i d o, s.job? i = some (.drawing d (.ended o)) → ∃ id, o = .id id ∧
      (withTables limits).notesOf h i = [.drawn d.table id]) ∧
    ∀ t, Fresh limits t h →
      drawnFrom t ((withTables limits).notes h) =
        (List.range (drawnFrom t ((withTables limits).notes h)).length).map (fun k ↦ ⟨.ofNat k⟩) ∧
      (drawnFrom t ((withTables limits).notes h)).Pairwise (fun x y ↦ x.number < y.number) ∧
      (∀ i a key, s.job? i = some (.allocating a (.ended (.refused (.duplicateKey key)))) →
        a.table ≠ t) ∧
      (∀ before after u a g, h = before ++ after → (withTables limits).run? before = some u →
        u.Keeps a g → a.table = t → (u.store.indexOf t)[g.key]? = none →
          (s.store.indexOf t)[g.key]? = none) ∧
      ∀ a g, s.Keeps a g → a.table = t →
        (∀ c b, s.Keeps c b → c.table = t → b.key = g.key → c = a ∧ b = g) ∧
        ∀ i job b, s.job? i = some job → job.found? = some (t, b) → b.key = g.key → b = g := by
  refine ⟨fun i a o hj ↦ Allocation.Leaves.drawn (Reachable.leaves hr hj), fun i d o hj ↦ ?_,
    fun t hf ↦ ⟨hf.drawn_eq hr, hf.ascending hr, fun i a key hj htable ↦ ?_, ?_, ?_⟩⟩
  · have hleaves : d.Leaves _ (.ended o) := Reachable.leaves hr hj
    cases o with
    | id id => exact ⟨id, rfl, hleaves⟩
    | _ => exact hleaves.elim
  · cases hf.duplicate?_eq_none hr hj htable
  · rintro before after u a g rfl hu hk rfl hout
    obtain ⟨v, hv, hafter⟩ := run?_append_eq_some.mp hr
    cases hu.symm.trans hv
    exact hf.never_returns hu hafter hk hout
  · rintro a g hk rfl
    have hunique : ∀ c b, s.Keeps c b → c.table = a.table → b.key = g.key → c = a ∧ b = g :=
      fun c b hkc htable hkey ↦ hf.keeps_unique hr hk hkc htable (congrArg Key.buffer hkey)
    refine ⟨hunique, fun i job b hj hfound hkey ↦ ?_⟩
    obtain ⟨c, hkc, htable⟩ := Reachable.keeps_of_found? ⟨h, hr⟩ hj hfound
    exact (hunique c b hkc htable hkey).2

/-- A buffer is allocated and freed. -/
def allocatedAndFreed : History :=
  History.allocated ⟨7⟩ 4 4 ++ History.call (.free 0 0 ⟨0⟩) 2 13

/-- Another buffer is allocated, and a number is drawn. -/
def allocatedAnew : History :=
  History.call (.allocate 0 0 4 4) 3 14 ++ History.call (.draw 0) 4 1

/-- The new buffer has a new number, and the key of the old one leads nowhere. -/
theorem old_key_leads_nowhere : ∃ s,
    (withTables [{}]).run? (allocatedAndFreed ++ allocatedAnew) = some s ∧
    drawnFrom 0 ((withTables [{}]).notes (allocatedAndFreed ++ allocatedAnew)) =
      [⟨0⟩, ⟨1⟩, ⟨2⟩] ∧
    (s.store.indexOf 0)[(⟨⟨7⟩, ⟨0⟩⟩ : Key)]? = none := by
  have hrun : ((withTables [{}]).run? allocatedAndFreed).bind (fun u ↦
      (u.run? allocatedAnew).map fun _ ↦
        (u.job? 1, (u.store.indexOf 0).contains ⟨⟨7⟩, ⟨0⟩⟩)) =
      some (some (.allocating ⟨0, 0, ⟨7⟩, 4, 4⟩ (.ended (.handle ⟨⟨⟨7⟩, ⟨0⟩⟩, 0⟩))), false) := by
    decide +kernel
  have hlength : (drawnFrom 0
      ((withTables [{}]).notes (allocatedAndFreed ++ allocatedAnew))).length = 3 := by
    decide +kernel
  have huntended : ∀ e ∈ allocatedAndFreed ++ allocatedAnew, e.2.isTending = false := by
    decide +kernel
  obtain ⟨u, hu, h⟩ := Option.bind_eq_some_iff.mp hrun
  obtain ⟨s, hs, h⟩ := Option.map_eq_some_iff.mp h
  obtain ⟨hjob, hout⟩ := Prod.mk.inj h
  have hall := run?_append_eq_some.mpr ⟨u, hu, hs⟩
  have hf : Fresh [{}] 0 (allocatedAndFreed ++ allocatedAnew) := by
    refine ⟨fun e he id hset ↦ ?_, by omega⟩
    simpa [hset, Action.isTending] using huntended e he
  obtain ⟨call, hc, hjob⟩ := job?_eq_some.mp hjob
  obtain ⟨-, -, hfresh⟩ := keys_never_return hall
  obtain ⟨hdrawn, -, -, hstays, -⟩ := hfresh 0 hf
  rw [hlength] at hdrawn
  exact ⟨s, hall, hdrawn, hstays _ _ u _ ⟨_, 0⟩ rfl hu ⟨1, call, hc, by rw [hjob]; rfl⟩ rfl
    (Index.not_contains_iff.mp hout)⟩

end Service

end SessionBuffers
