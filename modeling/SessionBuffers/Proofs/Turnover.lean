import SessionBuffers.Proofs.Stages

/-!
# What goes into indexes and comes out of them

Every change of an index is a mark: an allocation inserts a key, a free or a teardown takes it out.
The marks of a history balance with the indexes it leads to (`Service.Marked`), the marks of one
call are what its position says (`Job.Accounts`), and no storage is taken out twice.
-/

namespace SessionBuffers

/-- How a key comes into an index or leaves it. -/
inductive Passage where
  | inserted
  | freed
  /-- Taken out by a teardown. -/
  | reclaimed
  deriving DecidableEq

/-- A change of the index of a table: the call that makes it, and the buffer that comes or goes. -/
structure Mark where
  call : CallRef
  passage : Passage
  table : TableRef
  handle : Handle
  deriving DecidableEq

/-- The change of an index that the next step of a job makes. -/
def Job.mark? (s : Store) (i : CallRef) : Job → Option Mark
  | allocating a (.insert b key) =>
    if (s.indexOf a.table).contains key then none else some ⟨i, .inserted, a.table, ⟨key, b⟩⟩
  | freeing f (.erase b) => some ⟨i, .freed, f.table, ⟨f.key, b⟩⟩
  | tearingDown d (.erase key b _) => some ⟨i, .reclaimed, d.table, ⟨key, b⟩⟩
  | _ => none

/-- Whether a free has taken its key out of the index. -/
def Removal.Phase.hasErased : Phase → Bool
  | forget _ | unlockRegistry _ | unlockTable _ | dispose _ | unlockContent _ | count | report
  | ended .done => true
  | _ => false

/-- How many keys a teardown has taken out of the index. -/
def Teardown.Phase.taken : Phase → Nat
  | find _ s | reportMissing _ s | lockContent _ _ s | erase _ _ s => s.released
  | dispose _ _ s | unlockContent _ _ s => s.released + 1
  | unlockRegistry s | unlockTable s | countReleased s | countClosed s | report s => s.released
  | ended (.number n) => n
  | _ => 0

@[simp] theorem Teardown.Phase.taken_resume (s : Sweep) : (resume s).taken = s.released := by
  unfold resume
  split <;> rfl

/-- Whether a teardown takes a key out of the index next. -/
def Teardown.Phase.isErase : Phase → Bool
  | erase _ _ _ => true
  | _ => false

/-- Every other step of a teardown leaves the number of keys it has taken out. -/
theorem Teardown.taken_kept {d : Teardown} {phase : Phase} {step : Instr Phase}
    (he : phase.isErase = false) (hp : d.progress phase = .next step) :
    step.Always fun next ↦ next.taken = phase.taken := by
  cases phase with
  | erase key b w => cases he
  | ended o => cases hp
  | find key w =>
    cases hp
    intro index
    dsimp only
    split <;> rfl
  | drain first =>
    cases hp
    exact fun keys ↦ Phase.taken_resume _
  | reportMissing key w | unlockContent key b w =>
    cases hp
    exact Phase.taken_resume _
  | countReleased w =>
    cases hp
    dsimp only [Instr.Always]
    split <;> rfl
  | _ =>
    cases hp
    simp [Instr.Always, Phase.taken]

/-- Whether these are the changes of indexes that a job has made so far. -/
def Job.Accounts (i : CallRef) (marks : List Mark) : Job → Prop
  | allocating a phase =>
    marks = (allocating a phase).kept?.toList.map fun k ↦ ⟨i, .inserted, k.1.table, k.2⟩
  | freeing f phase =>
    if phase.hasErased then ∃ b, marks = [⟨i, .freed, f.table, ⟨f.key, b⟩⟩] else marks = []
  | tearingDown d phase =>
    marks.length = phase.taken ∧ ∀ m ∈ marks, m.passage = .reclaimed ∧ m.table = d.table
  | _ => marks = []

/-- How many keys an allocation has put into the index of a table. -/
def Job.inserted (t : TableRef) (job : Job) : Int :=
  match job.kept? with
  | some (a, _) => if a.table = t then 1 else 0
  | none => 0

/-- How many keys a free or a teardown has taken out of the index of a table. -/
def Job.removed (t : TableRef) : Job → Int
  | freeing f phase => if f.table = t ∧ phase.hasErased then 1 else 0
  | tearingDown d phase => if d.table = t then phase.taken else 0
  | _ => 0

/-- How many buffers of a table a free or a teardown has reported to have removed. -/
def Job.reported (t : TableRef) : Job → Int
  | freeing f (.ended .done) => if f.table = t then 1 else 0
  | tearingDown d (.ended (.number n)) => if d.table = t then n else 0
  | _ => 0

/-- Whether a job is a free or a teardown. -/
def Job.isRemoval : Job → Bool
  | freeing _ _ | tearingDown _ _ => true
  | _ => false

/-- What a change adds to the number of keys in the index of a table. -/
def Mark.gain (t : TableRef) (m : Mark) : Int :=
  if m.table = t then (if m.passage = .inserted then 1 else -1) else 0

/-- What a job has changed in all is what it has put in less what it has taken out. -/
theorem Job.Accounts.gain {i : CallRef} {marks : List Mark} {job : Job}
    (h : job.Accounts i marks) (t : TableRef) :
    (marks.map (Mark.gain t)).sum = job.inserted t - job.removed t := by
  cases job with
  | allocating a phase =>
    rw [show marks = _ from h]
    cases hk : (allocating a phase).kept? with
    | none => simp [inserted, removed, hk]
    | some k => simp [inserted, removed, hk, Mark.gain]
  | freeing f phase =>
    cases he : phase.hasErased with
    | false =>
      obtain rfl : marks = [] := by simpa [Accounts, he] using h
      simp [inserted, kept?, removed, he]
    | true =>
      obtain ⟨b, rfl⟩ : ∃ b, marks = [⟨i, .freed, f.table, ⟨f.key, b⟩⟩] := by
        simpa [Accounts, he] using h
      by_cases ht : f.table = t <;> simp [inserted, kept?, removed, Mark.gain, he, ht]
  | tearingDown d phase =>
    obtain ⟨hlength, hall⟩ := h
    have hgain : marks.map (Mark.gain t) =
        List.replicate phase.taken (if d.table = t then -1 else 0) := by
      refine List.eq_replicate_iff.mpr ⟨by simpa using hlength, fun g hg ↦ ?_⟩
      obtain ⟨m, hm, rfl⟩ := List.mem_map.mp hg
      simp [Mark.gain, (hall m hm).1, (hall m hm).2]
    rw [hgain]
    by_cases ht : d.table = t <;> simp [inserted, kept?, removed, ht]
  | _ _ _ =>
    rw [show marks = [] from h]
    rfl

namespace Service

/-- The change of an index that an action makes. -/
def mark? (s : Service) : Action → Option Mark
  | .step i => (s.job? i).bind (Job.mark? s.store i)
  | _ => none

/-- The changes of indexes that a history makes, in order. -/
def marks (s : Service) (h : History) : List Mark := s.collected mark? h

theorem marks_cons {supply : Supply} {s u : Service} {action : Action} {h : History}
    (hact : s.act? supply action = some u) :
    s.marks ((supply, action) :: h) = (s.mark? action).toList ++ u.marks h := collected_cons hact

/-- The changes of indexes that a call makes in a history. -/
def marksOf (s : Service) (h : History) (i : CallRef) : List Mark :=
  (s.marks h).filter fun m ↦ m.call == i

end Service

/-- How often a key comes into the index of a table, or leaves it, in one way. -/
def Passage.times (passage : Passage) (t : TableRef) (key : Key) (marks : List Mark) : Nat :=
  marks.countP fun m ↦ m.passage == passage && m.table == t && m.handle.key == key

theorem Passage.times_append (passage : Passage) (t : TableRef) (key : Key)
    (marks more : List Mark) :
    passage.times t key (marks ++ more) = passage.times t key marks + passage.times t key more :=
  List.countP_append

theorem Passage.times_singleton (passage : Passage) (t : TableRef) (key : Key) (m : Mark) :
    passage.times t key [m] =
      if m.passage = passage ∧ m.table = t ∧ m.handle.key = key then 1 else 0 := by
  simp [times, List.countP_cons, and_assoc]

/-! ### What a mark says of the indexes -/

/-- How the indexes change, by the mark of the change. -/
inductive Passes (s s' : Store) : Option Mark → Prop
  | still (h : ∀ t, s'.indexOf t = s.indexOf t) : Passes s s' none
  | enters {m : Mark} (hm : m.passage = .inserted)
    (hout : (s.indexOf m.table)[m.handle.key]? = none)
    (h : ∀ t, s'.indexOf t =
      if m.table = t then (s.indexOf t).insert m.handle.key m.handle.storage else s.indexOf t) :
    Passes s s' (some m)
  | leaves {m : Mark} (hm : m.passage ≠ .inserted)
    (hin : (s.indexOf m.table)[m.handle.key]? = some m.handle.storage)
    (h : ∀ t, s'.indexOf t =
      if m.table = t then (s.indexOf t).erase m.handle.key else s.indexOf t) :
    Passes s s' (some m)

section Step

variable {supply : Supply} {i : CallRef} {s s' : Store} {job next : Job} {instr : Instr Job}

/-- A step changes the indexes as its mark says. -/
theorem Job.passes (hk : job.Knows s) (hn : job.progress = .next instr)
    (hr : instr.run supply i s = some (next, s')) : Passes s s' (job.mark? s i) := by
  have hc := Instr.changes_of_run hr
  cases job with
  | allocating a phase =>
    obtain ⟨step, hp, rfl⟩ := Progress.map_eq_next.mp hn
    cases phase with
    | insert b key =>
      cases hp
      obtain ⟨-, ⟨hin, -⟩ | ⟨hout, -⟩⟩ := Instr.run_insert.mp hr
      · have hmark : mark? s i (.allocating a (.insert b key)) = none := by simp [mark?, hin]
        rw [hmark]
        refine .still fun t ↦ ?_
        rw [hc.index]
        by_cases ht : a.table = t
        · subst ht
          simp [Instr.map, Instr.onIndex, hin]
        · simp [Instr.map, Instr.onIndex, ht]
      · have hmark : mark? s i (.allocating a (.insert b key)) =
            some ⟨i, .inserted, a.table, ⟨key, b⟩⟩ := by simp [mark?, hout]
        rw [hmark]
        refine .enters rfl (Index.not_contains_iff.mp hout) fun t ↦ ?_
        rw [hc.index]
        by_cases ht : a.table = t
        · subst ht
          simp [Instr.map, Instr.onIndex, hout]
        · simp [Instr.map, Instr.onIndex, ht]
    | _ => cases hp <;> exact .still hc.index
  | freeing f phase =>
    obtain ⟨step, hp, rfl⟩ := Progress.map_eq_next.mp hn
    cases phase with
    | erase b =>
      cases hp
      exact .leaves (by simp) hk.1 hc.index
    | _ => cases hp <;> exact .still hc.index
  | tearingDown d phase =>
    obtain ⟨step, hp, rfl⟩ := Progress.map_eq_next.mp hn
    cases phase with
    | erase key b w =>
      cases hp
      exact .leaves (by simp) hk hc.index
    | _ => cases hp <;> exact .still hc.index
  | _ _ phase =>
    refine .still fun t ↦ ?_
    rw [hc.index]
    refine (Job.guarded hn).onIndex_eq ?_ _
    cases phase with
    | ended o => cases hn
    | _ => simp [held, Lookup.held, Access.held, Inspection.held, RosterCall.held]

/-- After a step a job has made the changes it had made before, and the one of the step. -/
theorem Job.Accounts.step {marks : List Mark} (h : job.Accounts i marks)
    (hn : job.progress = .next instr) (hr : instr.run supply i s = some (next, s')) :
    next.Accounts i (marks ++ (job.mark? s i).toList) := by
  cases job with
  | allocating a phase =>
    obtain ⟨step, hp, rfl⟩ := Progress.map_eq_next.mp hn
    cases phase with
    | insert b key =>
      cases hp
      obtain ⟨-, ⟨hin, rfl, -⟩ | ⟨hout, rfl, -⟩⟩ := Instr.run_insert.mp hr
      · simpa [Accounts, mark?, hin, kept?] using h
      · simpa [Accounts, mark?, hout, kept?] using h
    | checkLimits =>
      cases hp
      obtain ⟨-, rfl, -⟩ := Instr.run_consult.mp hr
      dsimp only [Function.comp]
      split <;> simpa [Accounts, mark?, kept?] using h
    | ended o => cases hp
    | _ =>
      cases hp
      obtain ⟨x, hx, rfl⟩ := Instr.run_map_eq_some.mp hr
      exact Instr.Always.of_run (P := fun x ↦ Accounts i (marks ++ []) (.allocating a x))
        (by simpa [Instr.Always, Accounts, kept?] using h) hx
  | freeing f phase =>
    obtain ⟨step, hp, rfl⟩ := Progress.map_eq_next.mp hn
    obtain ⟨x, hx, rfl⟩ := Instr.run_map_eq_some.mp hr
    cases phase with
    | erase b =>
      cases hp
      obtain ⟨-, rfl, -⟩ := Instr.run_erase.mp hx
      obtain rfl : marks = [] := by simpa [Accounts, Removal.Phase.hasErased] using h
      exact ⟨b, rfl⟩
    | find | checkOwner _ =>
      cases hp
      refine Instr.Always.of_run (P := fun x ↦ Accounts i (marks ++ []) (.freeing f x)) ?_ hx
      intro y
      dsimp only
      split <;> simpa [Accounts, Removal.Phase.hasErased] using h
    | ended o => cases hp
    | _ =>
      cases hp
      exact Instr.Always.of_run (P := fun x ↦ Accounts i (marks ++ []) (.freeing f x))
        (by simpa [Instr.Always, Accounts, Removal.Phase.hasErased] using h) hx
  | tearingDown d phase =>
    obtain ⟨step, hp, rfl⟩ := Progress.map_eq_next.mp hn
    obtain ⟨x, hx, rfl⟩ := Instr.run_map_eq_some.mp hr
    cases phase with
    | erase key b w =>
      cases hp
      obtain ⟨-, rfl, -⟩ := Instr.run_erase.mp hx
      refine ⟨by simp [mark?, h.1, Teardown.Phase.taken], fun m hm ↦ ?_⟩
      obtain hm | rfl : m ∈ marks ∨ m = ⟨i, .reclaimed, d.table, ⟨key, b⟩⟩ := by
        simpa [mark?] using hm
      · exact h.2 m hm
      · exact ⟨rfl, rfl⟩
    | ended o => cases hp
    | _ =>
      have hsame := Instr.Always.of_run (Teardown.taken_kept rfl hp) hx
      exact ⟨by simpa [mark?, hsame] using h.1, by simpa [mark?] using h.2⟩
  | _ _ phase =>
    obtain ⟨step, -, rfl⟩ := Progress.map_eq_next.mp hn
    obtain ⟨x, -, rfl⟩ := Instr.run_map_eq_some.mp hr
    simpa [Accounts, mark?] using h

theorem Job.call_of_mark? {m : Mark} (h : job.mark? s i = some m) : m.call = i := by
  unfold mark? at h
  split at h
  · split at h
    · cases h
    · cases h
      rfl
  · cases h
    rfl
  · cases h
    rfl
  · cases h

/-- A request begins with no change made. -/
theorem Job.accounts_of_ofRequest? {request : Request} (h : ofRequest? s request = some job) :
    job.Accounts i [] := by
  cases ofRequest?_eq_some.mp h with
  | teardown | endSession => exact ⟨rfl, by simp⟩
  | _ => rfl

end Step

namespace Service

variable {limits : List Limits} {supply : Supply} {s s' : Service} {action : Action} {h : History}
  {ms : List Mark}

/-- An action changes the indexes as its mark says. -/
theorem Sound.passes (hs : s.Sound) (hd : s.Does supply action s') :
    Passes s.store s'.store (s.mark? action) := by
  by_cases hstep : ∃ i, action = .step i
  · obtain ⟨i, rfl⟩ := hstep
    obtain ⟨call, instr, next, hc, hn, hr, -⟩ := hd.calls_step
    have hmark : s.mark? (.step i) = call.job.mark? s.store i := by simp [mark?, job?, hc]
    rw [hmark]
    exact Job.passes (hs.knows hc) hn hr
  · have hne (i : CallRef) : action ≠ .step i := fun he ↦ hstep ⟨i, he⟩
    have hmark : s.mark? action = none := by
      cases action with
      | step i => exact absurd rfl (hne i)
      | _ => rfl
    rw [hmark]
    exact .still (hd.views_kept hne).1

/-! ### What the marks so far say -/

/-- Whether these marks are the changes of indexes that have led to a service. -/
structure Marked (s : Service) (ms : List Mark) : Prop where
  known : ∀ m ∈ ms, ∃ job, s.job? m.call = some job
  /-- A key is in an index exactly when it has come in once more than it has left. -/
  balance : ∀ (t : TableRef) (key : Key), Passage.inserted.times t key ms =
    Passage.freed.times t key ms + Passage.reclaimed.times t key ms +
      if (s.store.indexOf t).contains key then 1 else 0
  accounts : ∀ {i : CallRef} {job : Job}, s.job? i = some job →
    job.Accounts i (ms.filter fun m ↦ m.call == i)
  /-- What has been taken out had been handed out, and is in no index any more. -/
  gone : ∀ m ∈ ms, m.passage ≠ .inserted → (∃ a, s.Keeps a m.handle) ∧
    ∀ (t : TableRef) (key : Key), (s.store.indexOf t)[key]? ≠ some m.handle.storage
  once : ((ms.filter fun m ↦ m.passage != .inserted).map fun m ↦ m.handle.storage).Nodup
  size : ∀ t, s.total (fun job ↦ job.inserted t - job.removed t) = (s.store.indexOf t).size

theorem marked_withTables (limits : List Limits) : (withTables limits).Marked [] where
  known := by simp
  balance t key := by simp [Passage.times, indexOf_withTables]
  accounts hj := by simp [withTables, job?] at hj
  gone := by simp
  once := by simp
  size t := by
    rw [indexOf_withTables]
    simp [total, withTables]

/-- The balance of a key after one more change. -/
private theorem balance_step {t : TableRef} {key : Key} {st st' : Store} {m : Option Mark}
    (hb : Passage.inserted.times t key ms = Passage.freed.times t key ms +
      Passage.reclaimed.times t key ms + if (st.indexOf t).contains key then 1 else 0)
    (ht : Passes st st' m) : Passage.inserted.times t key (ms ++ m.toList) =
      Passage.freed.times t key (ms ++ m.toList) + Passage.reclaimed.times t key (ms ++ m.toList) +
        if (st'.indexOf t).contains key then 1 else 0 := by
  simp only [Passage.times_append]
  cases ht with
  | still hsame => simpa [Passage.times, hsame] using hb
  | @enters m hm hout hindex =>
    simp only [Option.toList_some, Passage.times_singleton, hm]
    by_cases hplace : m.table = t ∧ m.handle.key = key
    · obtain ⟨rfl, rfl⟩ := hplace
      rw [Index.not_contains_iff.mpr hout] at hb
      simp only [hindex, if_pos, Index.contains_insert.mpr (.inl rfl)]
      simp at hb ⊢
      omega
    · have hsame : (st'.indexOf t).contains key = (st.indexOf t).contains key := by
        rw [hindex, Bool.eq_iff_iff]
        split
        · next ht =>
          rw [Index.contains_insert, or_iff_right fun hkey ↦ hplace ⟨ht, hkey⟩]
        · rfl
      simpa [hplace, hsame] using hb
  | @leaves m hm hin hindex =>
    simp only [Option.toList_some, Passage.times_singleton]
    by_cases hplace : m.table = t ∧ m.handle.key = key
    · obtain ⟨rfl, rfl⟩ := hplace
      have hout : (st'.indexOf m.table).contains m.handle.key = false := by
        rw [hindex, if_pos rfl, Index.not_contains_iff, Index.getElem?_erase, if_pos rfl]
      rw [Index.contains_iff.mpr ⟨_, hin⟩] at hb
      rw [hout]
      cases hpassage : m.passage with
      | inserted => exact absurd hpassage hm
      | freed | reclaimed =>
        simp at hb ⊢
        omega
    · have hsame : (st'.indexOf t).contains key = (st.indexOf t).contains key := by
        rw [hindex, Bool.eq_iff_iff]
        split
        · next ht =>
          rw [Index.contains_erase, and_iff_right fun hkey ↦ hplace ⟨ht, hkey⟩]
        · rfl
      simpa [hplace, hsame] using hb

/-- The change that an action makes is made by a call that takes a step. -/
private theorem action_of_mark? {m : Mark} (hm : s.mark? action = some m) :
    action = .step m.call ∧ ∃ job, s.job? m.call = some job := by
  cases action with
  | step i =>
    obtain ⟨job, hj, hmark⟩ := Option.bind_eq_some_iff.mp hm
    obtain rfl := Job.call_of_mark? hmark
    exact ⟨rfl, job, hj⟩
  | _ => cases hm

/-- The change that an action makes is one of a call when the action is a step of the call. -/
private theorem filter_mark? (s : Service) (action : Action) (i : CallRef) :
    (s.mark? action).toList.filter (fun m ↦ m.call == i) =
      if action = .step i then (s.mark? action).toList else [] := by
  split
  · next he =>
    apply List.filter_eq_self.mpr
    intro m hm
    obtain ⟨hstep, -⟩ := action_of_mark? (Option.mem_toList.mp hm)
    simpa using (Action.step.inj (hstep.symm.trans he))
  · next hne =>
    apply List.filter_eq_nil_iff.mpr
    intro m hm
    obtain ⟨rfl, -⟩ := action_of_mark? (Option.mem_toList.mp hm)
    simpa using hne

/-- What a call changes in a history, it changes by its own steps. -/
theorem marksOf_cons {u : Service} {i : CallRef} (hact : s.act? supply action = some u) :
    s.marksOf ((supply, action) :: h) i =
      (if action = .step i then (s.mark? action).toList else []) ++ u.marksOf h i := by
  rw [marksOf, marks_cons hact, List.filter_append, filter_mark?, marksOf]

/-- What a call has changed after an action. -/
private theorem Marked.accounts_step (h : s.Marked ms) (hd : s.Does supply action s')
    {i : CallRef} {job : Job} (hj : s'.job? i = some job) :
    job.Accounts i ((ms ++ (s.mark? action).toList).filter fun m ↦ m.call == i) := by
  rw [List.filter_append, filter_mark?]
  obtain ⟨hold, hne⟩ | ⟨request, rfl, hr, -⟩ | ⟨before, instr, rfl, hb, hn, hr⟩ := hd.job_cases hj
  · rw [if_neg hne, List.append_nil]
    exact h.accounts hold
  · rw [if_neg (by simp), List.append_nil]
    obtain ⟨before, hb⟩ | hnone : (∃ before, s.job? i = some before) ∨ s.job? i = none := by
      cases s.job? i <;> simp
    · cases (hd.job_kept hb (by simp)).symm.trans hj
      exact h.accounts hb
    · -- A call that has just been made has changed nothing yet.
      have hnew : ms.filter (fun m ↦ m.call == i) = [] := by
        apply List.filter_eq_nil_iff.mpr
        intro m hm hi
        obtain ⟨before, hb⟩ := h.known m hm
        rw [show m.call = i by simpa using hi, hnone] at hb
        cases hb
      rw [hnew]
      exact Job.accounts_of_ofRequest? hr
  · rw [if_pos rfl]
    have hmark : s.mark? (.step i) = before.mark? s.store i := by simp [mark?, hb]
    rw [hmark]
    exact (h.accounts hb).step hn hr

/-- What has been taken out stays out, and what an action takes out goes. -/
private theorem Marked.gone_step (h : s.Marked ms) (hs : s.Sound) (hd : s.Does supply action s')
    {m : Mark} (hm : m ∈ ms ++ (s.mark? action).toList) (hpassage : m.passage ≠ .inserted) :
    (∃ a, s'.Keeps a m.handle) ∧
      ∀ (t : TableRef) (key : Key), (s'.store.indexOf t)[key]? ≠ some m.handle.storage := by
  obtain hm | hm := List.mem_append.mp hm
  · obtain ⟨⟨a, hk⟩, hnot⟩ := h.gone m hm hpassage
    exact ⟨⟨a, hk.of_does hs hd⟩, hs.unindexed_kept hd hk hnot⟩
  · have hpasses := hs.passes hd
    rw [Option.mem_toList.mp hm] at hpasses
    cases hpasses with
    | enters hin _ _ => exact absurd hin hpassage
    | leaves _ hin hindex =>
      obtain ⟨a, hk, -⟩ := hs.kept hin
      refine ⟨⟨a, hk.of_does hs hd⟩, fun t key hb ↦ ?_⟩
      rw [hindex] at hb
      split at hb
      · next ht =>
        rw [Index.getElem?_erase] at hb
        split at hb
        · cases hb
        · next hkey => exact hkey (hs.distinct hin hb).2
      · next ht => exact ht (hs.distinct hin hb).1

/-- The size of an index after one more change. -/
private theorem size_step {st st' : Store} {m : Option Mark} (ht : Passes st st' m) (t : TableRef) :
    ((st'.indexOf t).size : Int) = (st.indexOf t).size + (m.toList.map (Mark.gain t)).sum := by
  cases ht with
  | still hsame => simp [hsame]
  | @enters m hm hout hindex =>
    rw [hindex]
    by_cases htable : m.table = t
    · subst htable
      simp [Mark.gain, hm, Index.size_insert hout]
    · simp [Mark.gain, htable]
  | @leaves m hm hin hindex =>
    rw [hindex]
    by_cases htable : m.table = t
    · subst htable
      have hsize := Index.size_erase hin
      have hgain : m.gain m.table = -1 := by simp [Mark.gain, hm]
      simp only [if_true, Option.toList_some, List.map_cons, List.map_nil, List.sum_cons,
        List.sum_nil, hgain]
      omega
    · simp [Mark.gain, htable]

/-- The sizes of the indexes after an action. -/
private theorem Marked.total_step (h : s.Marked ms) (hd : s.Does supply action s')
    (ht : Passes s.store s'.store (s.mark? action)) (t : TableRef) :
    s'.total (fun job ↦ job.inserted t - job.removed t) = (s'.store.indexOf t).size := by
  rw [size_step ht, ← h.size]
  cases action with
  | step i =>
    obtain ⟨call, -, -, hc, -⟩ := hd.calls_step
    have hj : s.job? i = some call.job := job?_eq_some.mpr ⟨call, hc, rfl⟩
    obtain ⟨-, next, -, -, hj'⟩ := hd.job_step hj
    have hgain := (h.accounts_step hd hj').gain t
    rw [List.filter_append, filter_mark?, if_pos rfl, List.map_append, List.sum_append,
      (h.accounts hj).gain] at hgain
    rw [hd.total_step hj hj']
    omega
  | _ =>
    rw [hd.total_rest (by simp) fun request _ job hr ↦ ?_]
    · simp [mark?]
    · rw [← (Job.accounts_of_ofRequest? (i := 0) hr).gain t]
      simp

/-- Every action adds its change to those that have led to a service. -/
theorem Marked.of_does (h : s.Marked ms) (hs : s.Sound) (hd : s.Does supply action s') :
    s'.Marked (ms ++ (s.mark? action).toList) := by
  have hpasses := hs.passes hd
  refine ⟨fun m hm ↦ ?_, fun t key ↦ balance_step (h.balance t key) hpasses, h.accounts_step hd,
    fun m hm hpassage ↦ h.gone_step hs hd hm hpassage, ?_, h.total_step hd hpasses⟩
  · obtain ⟨job, hj⟩ : ∃ job, s.job? m.call = some job := by
      obtain hm | hm := List.mem_append.mp hm
      · exact h.known m hm
      · exact (action_of_mark? (Option.mem_toList.mp hm)).2
    exact hd.exists_job hj
  · rw [List.filter_append, List.map_append, List.nodup_append]
    refine ⟨h.once, ?_, ?_⟩
    · cases s.mark? action with
      | none => simp
      | some m => cases hm : m.passage != .inserted <;> simp [hm]
    · rintro b hb c hc rfl
      obtain ⟨m, hm, rfl⟩ := List.mem_map.mp hb
      obtain ⟨hm, hpassage⟩ := List.mem_filter.mp hm
      obtain ⟨n, hn, hsame⟩ := List.mem_map.mp hc
      obtain ⟨hn, hpassage'⟩ := List.mem_filter.mp hn
      rw [Option.mem_toList.mp hn] at hpasses
      cases hpasses with
      | enters hin _ _ => simp [hin] at hpassage'
      | leaves _ hin _ => exact (h.gone m hm (by simpa using hpassage)).2 _ _ (hsame ▸ hin)

theorem Marked.run (hm : s.Marked ms) (hs : s.Sound) (hr : s.run? h = some s') :
    s'.Marked (ms ++ s.marks h) := by
  induction h generalizing s ms with
  | nil =>
    cases hr
    simpa [marks] using hm
  | cons e h ih =>
    obtain ⟨ha, u, hu, hr⟩ := run?_cons_eq_some.mp hr
    have hd := does_of_act? hu
    have hrest := ih (hm.of_does hs hd) (hs.of_does ha hd) hr
    rwa [marks_cons hu, ← List.append_assoc]

/-! ### Every buffer is removed once -/

theorem Reachable.marked (hr : (withTables limits).run? h = some s) :
    s.Marked ((withTables limits).marks h) :=
  (marked_withTables limits).run (sound_withTables limits) hr

/-- A free that has taken its key out never has to wait again. -/
private theorem Reachable.free_goes (hs : Reachable limits s) {i : CallRef} {f : Removal}
    {phase : Removal.Phase} (hj : s.job? i = some (.freeing f phase))
    (he : phase.hasErased = true) :
    s.outcome? i = some .done ∨ ∀ supply, (s.step? supply i).isSome := by
  cases phase with
  | ended o =>
    left
    obtain rfl : o = .done := by
      cases o with
      | done => rfl
      | _ => cases he
    exact outcome?_of_job? hj
  | _ => cases he <;> exact .inr fun supply ↦ hs.goes hj rfl rfl supply

/-- When no free or teardown is under way, each has reported what it has removed. -/
private theorem reported_eq_removed (h : ∀ i job, s.job? i = some job → job.isRemoval = true →
    job.outcome?.isSome) (t : TableRef) : s.total (Job.removed t) = s.total (Job.reported t) := by
  apply total_congr
  intro i job hj
  cases job with
  | freeing f phase =>
    obtain ⟨o, ho⟩ := Option.isSome_iff_exists.mp (h i _ hj rfl)
    have hended := Job.outcome?_eq_some.mp ho
    cases phase with
    | ended o => cases o <;> simp [Job.removed, Job.reported, Removal.Phase.hasErased]
    | _ => cases hended
  | tearingDown d phase =>
    obtain ⟨o, ho⟩ := Option.isSome_iff_exists.mp (h i _ hj rfl)
    have hended := Job.outcome?_eq_some.mp ho
    cases phase with
    | ended o => cases o <;> simp [Job.removed, Job.reported, Teardown.Phase.taken]
    | _ => cases hended
  | _ => rfl

/-- Every buffer is removed exactly once. After any history, a key is in the index of a table
exactly when allocations have put it there once more often than frees and teardowns have taken it
out. Every call accounts for its changes of the indexes: an allocation has made one if it has put
its key in, a free one of its key if it has taken that out, a teardown as many as it has counted,
and no other call any. A free that has taken its key out is bound to end well, and any other free
finds nothing; a teardown ends with the number of keys it has taken out. No storage is taken out
twice. And when no free or teardown is under way, what they have reported to have removed and what
is still in the index of a table together are what allocations have put there. -/
theorem removed_exactly_once (hr : (withTables limits).run? h = some s) :
    (∀ (t : TableRef) (key : Key), Passage.inserted.times t key ((withTables limits).marks h) =
      Passage.freed.times t key ((withTables limits).marks h) +
      Passage.reclaimed.times t key ((withTables limits).marks h) +
        if (s.store.indexOf t).contains key then 1 else 0) ∧
    (∀ i job, s.job? i = some job → job.Accounts i ((withTables limits).marksOf h i)) ∧
    (∀ i f phase, s.job? i = some (.freeing f phase) →
      (∀ o, phase = .ended o →
        (o = .done ∧ ∃ b, (withTables limits).marksOf h i = [⟨i, .freed, f.table, ⟨f.key, b⟩⟩]) ∨
        (o = .refused (.notFound f.key) ∧ (withTables limits).marksOf h i = [])) ∧
      ((withTables limits).marksOf h i ≠ [] →
        s.outcome? i = some .done ∨ ∀ supply, (s.step? supply i).isSome)) ∧
    (∀ i d o, s.job? i = some (.tearingDown d (.ended o)) →
      o = .number ((withTables limits).marksOf h i).length) ∧
    ((((withTables limits).marks h).filter fun m ↦ m.passage != .inserted).map
      fun m ↦ m.handle.storage).Nodup ∧
    ((∀ i job, s.job? i = some job → job.isRemoval = true → job.outcome?.isSome) →
      ∀ t, s.total (Job.reported t) + (s.store.indexOf t).size = s.total (Job.inserted t)) := by
  have hreach : Reachable limits s := ⟨h, hr⟩
  have hs := hreach.sound
  have hm := Reachable.marked hr
  refine ⟨hm.balance, fun i job hj ↦ hm.accounts hj, fun i f phase hj ↦ ⟨?_, fun hne ↦ ?_⟩,
    fun i d o hj ↦ ?_, hm.once, fun hidle t ↦ ?_⟩
  · rintro o rfl
    have haccounts := hm.accounts hj
    obtain ⟨call, hc, hjob⟩ := job?_eq_some.mp hj
    have hproper := hs.proper hc
    rw [hjob] at hproper
    obtain rfl | rfl := hproper
    · exact .inl ⟨rfl, haccounts⟩
    · exact .inr ⟨rfl, haccounts⟩
  · refine hreach.free_goes hj ?_
    by_contra hnot
    have haccounts := hm.accounts hj
    rw [Job.Accounts, if_neg hnot] at haccounts
    exact hne haccounts
  · have haccounts := hm.accounts hj
    obtain ⟨call, hc, hjob⟩ := job?_eq_some.mp hj
    have hproper := hs.proper hc
    rw [hjob] at hproper
    obtain ⟨n, rfl⟩ := hproper
    exact congrArg Outcome.number haccounts.1.symm
  · have hsize := hm.size t
    rw [total_sub, reported_eq_removed hidle] at hsize
    omega

/-- Two frees of one buffer: the second looks for it after the first has taken it out. -/
def freedTwice : History :=
  History.allocated ⟨7⟩ 4 4 ++ History.call (.free 0 0 ⟨0⟩) 2 0 ++
    History.call (.free 0 0 ⟨0⟩) 3 0 ++ List.replicate 13 (.addressable, .step 2) ++
    List.replicate 7 (.addressable, .step 3)

/-- Only the first of them has changed the index. -/
theorem freed_only_once : ∃ s, (withTables [{}]).run? freedTwice = some s ∧
    s.outcome? 2 = some .done ∧ s.outcome? 3 = some (.refused (.notFound ⟨⟨7⟩, ⟨0⟩⟩)) ∧
    (∃ b, (withTables [{}]).marksOf freedTwice 2 = [⟨2, .freed, 0, ⟨⟨⟨7⟩, ⟨0⟩⟩, b⟩⟩]) ∧
    (withTables [{}]).marksOf freedTwice 3 = [] := by
  have hrun : ((withTables [{}]).run? freedTwice).map (fun s ↦
      (s.outcome? 2, s.outcome? 3, s.job? 2, s.job? 3)) =
      some (some .done, some (.refused (.notFound ⟨⟨7⟩, ⟨0⟩⟩)),
        some (.freeing ⟨0, 0, ⟨⟨7⟩, ⟨0⟩⟩⟩ (.ended .done)),
        some (.freeing ⟨0, 0, ⟨⟨7⟩, ⟨0⟩⟩⟩ (.ended (.refused (.notFound ⟨⟨7⟩, ⟨0⟩⟩))))) := by
    decide +kernel
  obtain ⟨s, hs, h⟩ := Option.map_eq_some_iff.mp hrun
  simp only [Prod.mk.injEq] at h
  obtain ⟨hfirst, hsecond, hjob, hjob'⟩ := h
  obtain ⟨-, -, hfrees, -⟩ := removed_exactly_once hs
  refine ⟨s, hs, hfirst, hsecond, ?_, ?_⟩
  · obtain ⟨-, hmarks⟩ | ⟨hnot, -⟩ := (hfrees 2 _ _ hjob).1 _ rfl
    · exact hmarks
    · cases hnot
  · obtain ⟨hnot, -⟩ | ⟨-, hmarks⟩ := (hfrees 3 _ _ hjob').1 _ rfl
    · cases hnot
    · exact hmarks

end Service

end SessionBuffers
