import Mathlib.Algebra.BigOperators.Group.Finset.Basic
import Mathlib.Algebra.BigOperators.Intervals
import SessionBuffers.Proofs.Conservation
import SessionBuffers.Proofs.Notes

/-!
# Counters, log and results

What calls have ended with, what they have logged and what they have counted say the same. Every
note of a call is known from its position, so what is noted about a table is summed call by call:
a call that has ended leaves notes of its result and nothing else, and a call of another table none
that concern this one.
-/

namespace SessionBuffers

/-- What is told of a counter by something that tells of one counter at most. -/
def Counter.share (which : Counter) : Option (Counter × Nat) → Nat
  | some (other, n) => if other = which then n else 0
  | none => 0

/-- The counter an event goes with, and how much it tells. -/
def Event.tells? : Event → Option (Counter × Nat)
  | .sessionAttached _ => some (.sessionsOpened, 1)
  | .sessionTornDown _ released => some (.buffersReclaimed, released)
  | .listedButMissing _ => none
  | .allocated _ _ _ => some (.allocations, 1)
  | .allocateFailed _ _ _ _ => some (.allocationFailures, 1)
  | .freed _ => some (.frees, 1)
  | .freeMissed _ _ => some (.freeMisses, 1)
  | .lookupMissed _ => some (.lookupMisses, 1)

/-- What a note tells of a counter by the event it says was logged. -/
def Note.tells (which : Counter) (n : Note) : Nat := which.share (n.event?.bind Event.tells?)

namespace Job

/-- The table a job is for. Accesses and direct uses of a registry are for none. -/
def table? : Job → Option TableRef
  | attaching a _ => a.table?
  | allocating a _ => some a.table
  | freeing f _ => some f.table
  | tearingDown d _ => some d.table
  | lookingUp l _ => some l.table
  | inspecting q _ => some q.table
  | drawing d _ => some d.table
  | accessing _ _ | editing _ _ => none

/-- The counter that what a job has ended with goes with, and how much that is. -/
def result? : Job → Option (Counter × Nat)
  | attaching _ (.ended (.registry _)) | attaching _ (.ended (.session _)) =>
    some (.sessionsOpened, 1)
  | allocating _ (.ended (.handle _)) => some (.allocations, 1)
  | allocating _ (.ended (.refused _)) => some (.allocationFailures, 1)
  | freeing _ (.ended .done) => some (.frees, 1)
  | freeing _ (.ended (.refused _)) => some (.freeMisses, 1)
  | tearingDown _ (.ended (.number n)) => some (.buffersReclaimed, n)
  | lookingUp _ (.ended (.guard _)) => some (.lookups, 1)
  | lookingUp _ (.ended (.refused _)) => some (.lookupMisses, 1)
  | _ => none

/-- Whether these are the events of a job that has ended so. What has ended well and is not for a
table logs nothing, and neither do successful lookups, accesses, questions and drawings. -/
def Logs (events : List Event) : Job → Prop
  | attaching a (.ended (.registry _)) | attaching a (.ended (.session _)) =>
    events = if a.table?.isSome then [.sessionAttached a.session] else []
  | allocating a (.ended (.handle h)) => events = [.allocated h.key a.user a.kernel]
  | allocating a (.ended (.refused why)) =>
    events = [.allocateFailed a.session a.user a.kernel why]
  | freeing f (.ended .done) => events = [.freed f.key]
  | freeing f (.ended (.refused _)) => ∃ inTable, events = [.freeMissed f.key inTable]
  | tearingDown d (.ended (.number n)) => n = 0 ∧ events = [] ∨
    ∃ keys : List Key, events = keys.map .listedButMissing ++ [.sessionTornDown d.session n]
  | lookingUp l (.ended (.refused _)) => events = [.lookupMissed l.key]
  | _ => events = []

variable {job next : Job} {notes : List Note} {limits : TableRef → Limits} {o : Outcome}
  {t u : TableRef} {which : Counter} {amount : UInt64}

theorem SameTask.table? (h : job.SameTask next) : next.table? = job.table? := by
  cases job <;> cases next <;> cases h <;> rfl

/-! ### The notes of calls that have ended -/

/-- Whatever a job counts, it counts for its table. -/
theorem table?_of_count {instr : Instr Job} {supply : Supply} {s : Store}
    (h : job.Leaves limits notes) (hn : job.progress = .next instr)
    (hc : instr.note? supply s = some (.counted u which amount)) : job.table? = some u := by
  cases job <;> obtain ⟨step, hp, rfl⟩ := Progress.map_eq_next.mp hn <;> rw [Instr.note?_map] at hc
  case attaching a phase =>
    cases phase with
    | start =>
      simp only [Attachment.progress] at hp
      split at hp <;> cases hp <;> cases hc
    | count t r =>
      cases hp
      cases hc
      exact h.1
    | _ => cases hp <;> cases hc
  case editing c phase =>
    cases phase with
    | act =>
      cases hp
      cases (c.note?_act supply s).symm.trans hc
    | _ => cases hp <;> cases hc
  case allocating a phase => cases phase <;> cases hp <;> cases hc <;> rfl
  case freeing f phase => cases phase <;> cases hp <;> cases hc <;> rfl
  case tearingDown d phase => cases phase <;> cases hp <;> cases hc <;> rfl
  case lookingUp l phase => cases phase <;> cases hp <;> cases hc <;> rfl
  case accessing a phase => cases phase <;> cases hp <;> cases hc
  case inspecting q phase => cases phase <;> cases hp <;> cases hc
  case drawing d phase =>
    cases phase <;> cases hp
    cases hc

/-- Whether the notes of a job account for what it has ended with: by what they count, by how much
the events that were logged tell, and by these events themselves. -/
structure Accounted (t : TableRef) (notes : List Note) (job : Job) : Prop where
  counted : job.table? = some t → ∀ which, which ≠ .sessionsClosed →
    (notes.map (Note.adds t which)).sum = .ofNat (which.share job.result?)
  told : job.table? = some t → ∀ which, which ≠ .sessionsClosed → which ≠ .lookups →
    (notes.map (Note.tells which)).sum = which.share job.result?
  logs : job.Logs (notes.filterMap Note.event?)

/-- What neither counts nor logs needs no account. -/
private theorem accounted_cons {n : Note} (hadds : ∀ which, n.adds t which = 0)
    (hevent : n.event? = none) (h : Accounted t notes job) : Accounted t (n :: notes) job where
  counted ht which hw := by
    rw [List.map_cons, List.sum_cons, hadds, zero_add, h.counted ht which hw]
  told ht which hw hl := by
    rw [List.map_cons, List.sum_cons, h.told ht which hw hl]
    simp [Note.tells, hevent, Counter.share]
  logs := by
    rw [List.filterMap_cons_none hevent]
    exact h.logs

/-- No note accounts for no result. -/
private theorem accounted_nil (hresult : ∀ which : Counter, which.share job.result? = 0)
    (hlogs : job.Logs []) : Accounted t [] job :=
  ⟨fun _ which _ ↦ by rw [hresult]; rfl, fun _ which _ _ ↦ (hresult which).symm, hlogs⟩

/-- One thing counted and one event about it account for a result that tells the same. -/
private theorem accounted_pair {c : Counter} {event : Event} (hresult : job.result? = some (c, 1))
    (hevent : event.tells? = some (c, 1)) (hu : job.table? = some u) (hlogs : job.Logs [event]) :
    Accounted t [.counted u c 1, .logged event] job := by
  refine ⟨fun ht which _ ↦ ?_, fun _ which _ _ ↦ ?_, hlogs⟩
  · obtain rfl : u = t := Option.some.inj (hu.symm.trans ht)
    by_cases hw : c = which <;> simp [Note.adds, hresult, Counter.share, hw]
  · simp [Note.tells, Note.event?, hresult, hevent, Counter.share]

private theorem accounted_of_drew {a : Allocation} {limits : Limits} {key : Key}
    {more : List Note} (h : a.Drew limits notes key more) (hj : Accounted t more job) :
    Accounted t notes job := by
  obtain ⟨-, -, rfl⟩ := h
  exact accounted_cons (fun _ ↦ rfl) rfl
    (accounted_cons (fun _ ↦ rfl) rfl (accounted_cons (fun _ ↦ rfl) rfl hj))

private theorem accounted_of_fails {a : Allocation} {limits : Limits} {why : Failure}
    {more : List Note} (h : a.Fails limits notes why more) (hj : Accounted t more job) :
    Accounted t notes job := by
  obtain ⟨key, -, hd⟩ | ⟨-, ⟨-, rfl⟩ | ⟨-, rfl | rfl⟩⟩ := h
  · exact accounted_of_drew hd hj
  · exact hj
  · exact accounted_cons (fun _ ↦ rfl) rfl hj
  · exact accounted_cons (fun _ ↦ rfl) rfl (accounted_cons (fun _ ↦ rfl) rfl hj)

private theorem accounted_of_onTable {a : Attachment} (ha : a.table? = some u)
    (hresult : job.result? = some (.sessionsOpened, 1)) (hu : job.table? = a.table?)
    (hlogs : job.Logs [.sessionAttached a.session]) : Accounted t (a.onTable u) job :=
  accounted_cons (fun _ ↦ rfl) rfl (accounted_pair hresult rfl (hu.trans ha) hlogs)

/-- The events of a teardown: the keys that were missing, and one event at its end. -/
private theorem events_of_tallied (d : Teardown) (keys : List Key) (first : Bool) (n : Nat) :
    (Teardown.missing keys ++ d.tallied n first ++
      [Note.logged (.sessionTornDown d.session n)]).filterMap Note.event? =
        keys.map .listedButMissing ++ [.sessionTornDown d.session n] := by
  have hmissing : (Teardown.missing keys).filterMap Note.event? = keys.map .listedButMissing := by
    simp [Teardown.missing, List.filterMap_map, Function.comp_def, Note.event?]
  rw [List.filterMap_append, List.filterMap_append, hmissing]
  cases first <;> simp [Teardown.tallied, Note.event?]

/-- The keys that were missing tell of no counter, and the one event after them tells how much was
reclaimed. -/
private theorem accounted_of_tallied (d : Teardown) (keys : List Key) (first : Bool) (n : Nat) :
    Accounted t
      (Teardown.missing keys ++ d.tallied n first ++ [.logged (.sessionTornDown d.session n)])
      (.tearingDown d (.ended (.number n))) := by
  have hadds (which : Counter) : ((Teardown.missing keys).map (Note.adds t which)).sum = 0 := by
    simp [Teardown.missing, Note.adds, Function.comp_def]
  have htells (which : Counter) : ((Teardown.missing keys).map (Note.tells which)).sum = 0 := by
    simp [Teardown.missing, Note.tells, Note.event?, Event.tells?, Counter.share, Function.comp_def]
  refine ⟨fun ht which hw ↦ ?_, fun _ which hw _ ↦ ?_,
    .inr ⟨keys, events_of_tallied d keys first n⟩⟩
  · rw [List.map_append, List.map_append, List.sum_append, List.sum_append, hadds]
    by_cases hr : Counter.buffersReclaimed = which <;> cases first <;>
      simp [Teardown.tallied, Note.adds, result?, Counter.share, hr, hw.symm, Option.some.inj ht]
  · rw [List.map_append, List.map_append, List.sum_append, List.sum_append, htells]
    cases first <;>
      simp [Teardown.tallied, Note.tells, Note.event?, Event.tells?, result?, Counter.share]

/-- The notes of a job that has ended account for its result. -/
theorem Leaves.accounted (h : job.Leaves limits notes) (ho : job.outcome? = some o)
    (t : TableRef) : Accounted t notes job := by
  have hp := outcome?_eq_some.mp ho
  cases job with
  | allocating a phase =>
    cases phase <;> cases hp
    cases o with
    | handle g => exact accounted_of_drew h (accounted_pair rfl rfl rfl rfl)
    | refused why => exact accounted_of_fails h (accounted_pair rfl rfl rfl rfl)
    | _ => exact h.elim
  | freeing f phase =>
    cases phase <;> cases hp
    cases o with
    | done =>
      rw [show notes = _ from h]
      exact accounted_pair rfl rfl rfl rfl
    | refused why =>
      obtain ⟨inTable, rfl⟩ := h
      exact accounted_pair rfl rfl rfl ⟨inTable, rfl⟩
    | _ => exact h.elim
  | lookingUp l phase =>
    cases phase <;> cases hp
    cases o with
    | guard g =>
      rw [show notes = _ from h]
      refine ⟨fun ht which _ ↦ ?_, fun _ which _ hl ↦ ?_, rfl⟩
      · by_cases hw : Counter.lookups = which <;>
          simp [Note.adds, result?, Counter.share, hw, Option.some.inj ht]
      · simp [Note.tells, Note.event?, result?, Counter.share, Ne.symm hl]
    | refused why =>
      rw [show notes = _ from h]
      exact accounted_pair rfl rfl rfl rfl
    | _ => exact h.elim
  | attaching a phase =>
    cases phase with
    | start =>
      simp only [progress, Attachment.progress] at hp
      split at hp <;> cases hp
    | ended o =>
      cases hp
      cases o with
      | registry r =>
        obtain ⟨ht, rfl⟩ | ⟨u, hpurpose, rfl⟩ := h
        · refine ⟨fun hu ↦ ?_, fun hu ↦ ?_, by simp [Logs, ht, Note.event?]⟩ <;>
            cases ht.symm.trans hu
        · have ha : a.table? = some u := by rw [Attachment.table?, hpurpose]
          exact accounted_of_onTable ha rfl rfl (by simp [Logs, ha])
      | session c =>
        obtain ⟨u, hpurpose, rfl⟩ := h
        have ha : a.table? = some u := by rw [Attachment.table?, hpurpose]
        exact accounted_of_onTable ha rfl rfl (by simp [Logs, ha])
      | refused why =>
        obtain ⟨-, rfl⟩ := h
        exact accounted_cons (fun _ ↦ rfl) rfl (accounted_nil (fun _ ↦ rfl) rfl)
      | _ => exact h.elim
    | _ => cases hp
  | tearingDown d phase =>
    cases phase <;> cases hp
    cases o with
    | number n =>
      obtain ⟨rfl, rfl⟩ | ⟨keys, first, rfl⟩ := h
      · exact accounted_nil (fun which ↦ by cases which <;> rfl) (.inl ⟨rfl, rfl⟩)
      · exact accounted_of_tallied d keys first n
    | _ => exact h.elim
  | drawing d phase =>
    cases phase <;> cases hp
    cases o with
    | id n =>
      rw [show notes = _ from h]
      exact accounted_cons (fun _ ↦ rfl) rfl (accounted_nil (fun _ ↦ rfl) rfl)
    | _ => exact h.elim
  | _ _ phase =>
    rw [show notes = [] from h]
    exact accounted_nil (fun _ ↦ rfl) rfl

end Job

/-! ### A teardown leaves a note before it ends -/

/-- A teardown under way ends only by its report. -/
private theorem Teardown.ends_by_report {d : Teardown} {phase : Phase} {step : Instr Phase}
    (hp : d.progress phase = .next step) (hf : ∀ c, phase ≠ .finish c) :
    step.Always fun x ↦ ∀ o, x = .ended o → ∃ w, phase = .report w := by
  have hresume (w : Sweep) : ∀ o, Phase.resume w = .ended o → ∃ w, phase = .report w := by
    unfold Phase.resume
    split <;> simp
  cases phase with
  | finish c => exact absurd rfl (hf c)
  | drain first =>
    cases hp
    exact fun keys ↦ hresume _
  | find key w =>
    cases hp
    intro index
    dsimp only
    split <;> simp
  | reportMissing key w =>
    cases hp
    exact hresume _
  | unlockContent key b w =>
    cases hp
    exact hresume _
  | countReleased w =>
    cases hp
    simp only [Instr.Always]
    split <;> simp
  | _ => cases hp <;> simp [Instr.Always]

namespace Service

variable {limits : List Limits} {supply : Supply} {s s' base : Service} {h : History}
  {i : CallRef} {t u : TableRef} {job : Job} {o : Outcome} {d : Teardown}

/-- A teardown that has still to lock its registry leaves a note before it has ended. -/
private theorem notesOf_ne_nil {phase : Teardown.Phase} (hr : s.run? h = some s')
    (hj : s.job? i = some (.tearingDown d phase)) (hf : ∀ c, phase ≠ .finish c)
    (hunended : ∀ o, phase ≠ .ended o) (ho : s'.outcome? i = some o) : s.notesOf h i ≠ [] := by
  induction h generalizing s phase with
  | nil =>
    cases hr
    rw [outcome?_of_job? hj] at ho
    cases phase <;> cases Job.outcome?_eq_some.mp ho
    exact absurd rfl (hunended _)
  | cons e h ih =>
    obtain ⟨-, u, hu, hr⟩ := run?_cons_eq_some.mp hr
    have hd := does_of_act? hu
    rw [notesOf, notes_cons hu, ofCall_append]
    by_cases hstep : e.2 = .step i
    · rw [hstep] at hd ⊢
      obtain ⟨instr, next, hn, hrun, hnext⟩ := hd.job_step hj
      obtain ⟨step, hp, rfl⟩ := Progress.map_eq_next.mp hn
      obtain ⟨x, hx, rfl⟩ := Instr.run_map_eq_some.mp hrun
      have hxo := (Teardown.ends_by_report hp hf).of_run hx
      by_cases hreport : ∃ w, phase = .report w
      · obtain ⟨w, rfl⟩ := hreport
        cases hp
        rw [note?_step hj hn, Instr.note?_map]
        simp [ofCall, Instr.note?]
      · have hrest := ih hr hnext (Teardown.not_finish_of_step hp hx)
          (fun o he ↦ hreport (hxo o he))
        simp only [ne_eq, List.append_eq_nil_iff, not_and]
        exact fun _ ↦ hrest
    · have hrest := ih hr (hd.job_kept hj hstep) hf hunended
      simp only [ne_eq, List.append_eq_nil_iff, not_and]
      exact fun _ ↦ hrest

/-! ### Notes call by call -/

/-- The table a call is for. -/
def tableOf? (s : Service) (i : CallRef) : Option TableRef := (s.job? i).bind Job.table?

/-- Whether every call for a table has ended. -/
def RestsAt (s : Service) (t : TableRef) : Prop :=
  ∀ i job, s.job? i = some job → job.table? = some t → ∃ o, job.outcome? = some o

/-- Every table rests when no call is under way. -/
theorem Idle.restsAt (hidle : s.Idle) : s.RestsAt t := fun _ _ hj _ ↦ by
  obtain ⟨o, ho, -⟩ := hidle.outcome? hj
  exact ⟨o, ho⟩

/-- What the calls for a table from one on have ended with, as far as it goes with a counter. -/
def results (s : Service) (t : TableRef) (which : Counter) (since : CallRef) : Nat :=
  ∑ i ∈ Finset.Ico since s.calls.size,
    if s.tableOf? i = some t then which.share ((s.job? i).bind Job.result?) else 0

/-- The events from one on that calls for a table have logged. -/
def eventsOn (s : Service) (t : TableRef) (since : Nat) : List Event :=
  (s.store.log.toList.drop since).filterMap fun e ↦
    if s.tableOf? e.1 = some t then some e.2 else none

/-- The events a call has logged. -/
def eventsBy (s : Service) (i : CallRef) : List Event :=
  s.store.log.toList.filterMap fun e ↦ if e.1 = i then some e.2 else none

/-- A sum over notes is one over calls, each with its notes. -/
private theorem sum_notes {M : Type} [AddCommMonoid M] (f : CallRef → Note → M)
    {ns : List (CallRef × Note)} {n : Nat} (hlt : ∀ p ∈ ns, p.1 < n) :
    (ns.map fun p ↦ f p.1 p.2).sum = ∑ i ∈ Finset.range n, ((ofCall i ns).map (f i)).sum := by
  induction ns with
  | nil => simp [ofCall]
  | cons p ns ih =>
    have hhead (i : CallRef) : ((ofCall i (p :: ns)).map (f i)).sum =
        (if p.1 = i then f i p.2 else 0) + ((ofCall i ns).map (f i)).sum := by
      unfold ofCall
      by_cases hi : p.1 = i <;> simp [hi]
    rw [List.map_cons, List.sum_cons, ih fun q hq ↦ hlt q (by simp [hq])]
    simp only [hhead, Finset.sum_add_distrib, Finset.sum_ite_eq, Finset.mem_range,
      hlt p (by simp), if_true]

/-- Every note is of a call, and what it says was counted is for the table of that call. -/
private theorem exists_job_of_note (hs : Reachable limits s) (hr : s.run? h = some s')
    {p : CallRef × Note} (hp : p ∈ s.notes h) : ∃ job, s'.job? p.1 = some job ∧
      ∀ u which amount, p.2 = .counted u which amount → job.table? = some u := by
  induction h generalizing s with
  | nil => cases hp
  | cons e h ih =>
    obtain ⟨ha, v, hv, hr⟩ := run?_cons_eq_some.mp hr
    rw [notes_cons hv, List.mem_append, Option.mem_toList] at hp
    obtain hp | hp := hp
    · obtain ⟨hstep, job, instr, hj, hn, hnote⟩ := note?_eq_some.mp hp
      obtain ⟨last, hlast, hsame⟩ := sameTask_of_run hj (run?_cons_eq_some.mpr ⟨ha, v, hv, hr⟩)
      refine ⟨last, hlast, fun u which amount hcounted ↦ ?_⟩
      obtain ⟨k, hk⟩ := hs
      rw [hsame.table?]
      rw [hcounted] at hnote
      exact Job.table?_of_count (Reachable.leaves hk hj) hn hnote
    · exact ih (hs.act ha hv) hr hp

/-- A call that has ended leaves no more notes. -/
private theorem notesOf_of_outcome? (hj : s.job? i = some job) (ho : job.outcome? = some o)
    (hr : s.run? h = some s') : s.notesOf h i = [] := by
  induction h generalizing s with
  | nil => rfl
  | cons e h ih =>
    obtain ⟨-, u, hu, hr⟩ := run?_cons_eq_some.mp hr
    have hne : e.2 ≠ .step i := fun hstep ↦ by
      have hd := does_of_act? hu
      rw [hstep] at hd
      obtain ⟨instr, -, hn, -⟩ := hd.job_step hj
      cases hn.symm.trans (Job.outcome?_eq_some.mp ho)
    have hnote : ofCall i (s.note? e.1 e.2).toList = [] := by
      refine List.filterMap_eq_nil_iff.mpr fun n hn ↦ if_neg ?_
      rintro rfl
      exact hne (note?_eq_some.mp (Option.mem_toList.mp hn)).1
    rw [notesOf, notes_cons hu, ofCall_append, hnote, List.nil_append]
    exact ih ((does_of_act? hu).job_kept hj hne) hr

/-- Between two services at which a table rests, what the calls for it have noted is what those
made in between have ended with. -/
private theorem sum_between {M : Type} [AddCommMonoid M] {f : Note → M} {g : Job → M}
    (hs : Reachable limits base) (hr : base.run? h = some s) (hbase : base.RestsAt t)
    (hrest : s.RestsAt t)
    (hg : ∀ {job : Job} {limits : TableRef → Limits} {notes : List Note} {o : Outcome},
      job.Leaves limits notes → job.outcome? = some o → job.table? = some t →
        (notes.map f).sum = g job) :
    ((base.notes h).map fun p ↦ if s.tableOf? p.1 = some t then f p.2 else 0).sum =
      ∑ i ∈ Finset.Ico base.calls.size s.calls.size,
        if s.tableOf? i = some t then ((s.job? i).map g).getD 0 else 0 := by
  have hlt : ∀ p ∈ base.notes h, p.1 < s.calls.size := fun p hp ↦ by
    obtain ⟨job, hj, -⟩ := exists_job_of_note hs hr hp
    obtain ⟨call, hc, -⟩ := job?_eq_some.mp hj
    exact (Array.getElem?_eq_some_iff.mp hc).1
  have hle : base.calls.size ≤ s.calls.size := by
    refine Nat.le_of_not_lt fun hlt ↦ ?_
    have hj : base.job? s.calls.size = some base.calls[s.calls.size].job := by simp [job?, hlt]
    obtain ⟨last, hlast, -⟩ := sameTask_of_run hj hr
    simp [job?] at hlast
  have hterm (i : CallRef) :
      ((ofCall i (base.notes h)).map fun n ↦ if s.tableOf? i = some t then f n else 0).sum =
        if s.tableOf? i = some t then ((base.notesOf h i).map f).sum else 0 := by
    split <;> simp [notesOf]
  -- Calls from before had ended if they were for the table, so they have left no more notes.
  have hold : ∀ i ∈ Finset.range base.calls.size,
      (if s.tableOf? i = some t then ((base.notesOf h i).map f).sum else 0) = 0 := fun i hi ↦ by
    rw [Finset.mem_range] at hi
    split
    · next ht =>
      have hj : base.job? i = some base.calls[i].job := by simp [job?, hi]
      obtain ⟨last, hlast, hsame⟩ := sameTask_of_run hj hr
      rw [tableOf?, hlast, Option.bind_some, hsame.table?] at ht
      obtain ⟨o, ho⟩ := hbase i _ hj ht
      rw [notesOf_of_outcome? hj ho hr]
      rfl
    · rfl
  have hnew : ∀ i ∈ Finset.Ico base.calls.size s.calls.size,
      (if s.tableOf? i = some t then ((base.notesOf h i).map f).sum else 0) =
        if s.tableOf? i = some t then ((s.job? i).map g).getD 0 else 0 := fun i hi ↦ by
    rw [Finset.mem_Ico] at hi
    have hnone : base.job? i = none := by simp [job?, hi.1]
    have hj : s.job? i = some s.calls[i].job := by simp [job?, hi.2]
    split
    · next ht =>
      rw [tableOf?, hj, Option.bind_some] at ht
      obtain ⟨o, ho⟩ := hrest i _ hj ht
      rw [hg (leaves_of_run hr hnone hj) ho ht, hj]
      rfl
    · rfl
  rw [sum_notes (fun i n ↦ if s.tableOf? i = some t then f n else 0) hlt,
    Finset.sum_congr rfl fun i _ ↦ hterm i, ← Finset.sum_range_add_sum_Ico _ hle,
    Finset.sum_eq_zero hold, zero_add, Finset.sum_congr rfl hnew]

/-! ### The log call by call -/

/-- What was logged for a table tells as much as the notes of the calls for it. -/
private theorem tells_of_notes (q : CallRef → Prop) [DecidablePred q] (which : Counter)
    (ns : List (CallRef × Note)) :
    (((ns.filterMap fun n ↦ n.2.event?.map fun event ↦ (n.1, event)).filterMap fun e ↦
      if q e.1 then some e.2 else none).map fun event ↦ which.share event.tells?).sum =
      (ns.map fun p ↦ if q p.1 then p.2.tells which else 0).sum := by
  induction ns with
  | nil => rfl
  | cons p ns ih =>
    rw [List.map_cons, List.sum_cons, ← ih]
    cases he : p.2.event? with
    | none => simp [he, Note.tells, Counter.share]
    | some event => by_cases hq : q p.1 <;> simp [he, hq, Note.tells]

/-- The events of a call are those its notes say were logged. -/
private theorem eventsBy_eq (hr : (withTables limits).run? h = some s) (i : CallRef) :
    s.eventsBy i = ((withTables limits).notesOf h i).filterMap Note.event? := by
  have hlog := log_of_notes hr
  rw [show (withTables limits).store.log.toList = [] from rfl, List.nil_append] at hlog
  rw [eventsBy, hlog, notesOf, ofCall, List.filterMap_filterMap, List.filterMap_filterMap]
  refine List.filterMap_congr fun n _ ↦ ?_
  by_cases hi : n.1 = i <;> cases he : n.2.event? <;> simp [hi, he]

/-! ### Since the last reset -/

/-- What has happened since the last reset, at which all counters were zero. -/
private theorem exists_run_since (hs : Reachable limits s) (hr : s.run? h = some s')
    (t : TableRef) : ∃ after, ((s.lastReset t h).getD s).run? after = some s' ∧
      Reachable limits ((s.lastReset t h).getD s) ∧
      (∀ e ∈ after, e ∈ h ∧ e.2 ≠ .resetCounters t) ∧
      ∀ r, s.lastReset t h = some r → r.store.countersOf t = {} := by
  induction h generalizing s with
  | nil => exact ⟨[], hr, hs, by simp, by simp [lastReset]⟩
  | cons e h ih =>
    obtain ⟨ha, u, hu, hr⟩ := run?_cons_eq_some.mp hr
    obtain ⟨after, hrun, hreach, hmem, hzero⟩ := ih (hs.act ha hu) hr
    simp only [lastReset, hu]
    cases hlast : u.lastReset t h with
    | some r =>
      rw [hlast] at hrun hreach
      exact ⟨after, hrun, hreach, fun e' he' ↦ ⟨by simp [hmem e' he'], (hmem e' he').2⟩,
        fun q hq ↦ hzero q (hlast.trans hq)⟩
    | none =>
      rw [hlast] at hrun hreach
      by_cases he : e.2 = .resetCounters t
      · rw [if_pos he]
        rw [he] at hu
        refine ⟨after, hrun, hreach, fun e' he' ↦ ⟨by simp [hmem e' he'], (hmem e' he').2⟩, ?_⟩
        rintro r hr
        cases hr
        exact (counters_reset hu).1
      · rw [if_neg he]
        refine ⟨e :: after, run?_cons_eq_some.mpr ⟨ha, u, hu, hrun⟩, hs, fun e' he' ↦ ?_, by simp⟩
        obtain rfl | he' := List.mem_cons.mp he'
        · exact ⟨by simp, he⟩
        · exact ⟨by simp [hmem e' he'], (hmem e' he').2⟩

/-- Results add up as words as they do as numbers. -/
private theorem ofNat_results (s : Service) (t : TableRef) (which : Counter) (since : CallRef) :
    (∑ i ∈ Finset.Ico since s.calls.size, if s.tableOf? i = some t then
      ((s.job? i).map fun job ↦ UInt64.ofNat (which.share job.result?)).getD 0 else 0) =
        .ofNat (s.results t which since) := by
  refine Finset.sum_hom_rel (r := fun x n ↦ x = UInt64.ofNat n) rfl fun i x n hx ↦ ?_
  rw [hx, UInt64.ofNat_add]
  congr 1
  split
  · cases s.job? i <;> rfl
  · rfl

/-- While nobody advances the counters of a table by hand, and when all calls for it have ended, as
they had when its counters were last reset: each counter is the sum of what the calls made since
then have ended with, and so is what the events logged since then for the table tell of it. Every
call that has ended has logged just the events of its outcome, and a teardown that has come to lock
its registry one event with its outcome. -/
theorem counters_log_and_results_agree (hr : (withTables limits).run? h = some s)
    (hcount : ∀ e ∈ h, ∀ which amount, e.2 ≠ .count t which amount)
    (hbase : base = ((withTables limits).lastReset t h).getD (withTables limits))
    (hthen : base.RestsAt t) (hnow : s.RestsAt t) :
    (∀ which, which ≠ .sessionsClosed →
      (s.store.countersOf t).get which = .ofNat (s.results t which base.calls.size)) ∧
    (∀ which, which ≠ .sessionsClosed → which ≠ .lookups →
      ((s.eventsOn t base.store.log.size).map fun event ↦ which.share event.tells?).sum =
        s.results t which base.calls.size) ∧
    (∀ i job o, s.job? i = some job → job.outcome? = some o → job.Logs (s.eventsBy i)) ∧
    ∀ before after u i d o, h = before ++ after → (withTables limits).run? before = some u →
      u.job? i = some (.tearingDown d .lockRegistry) → s.outcome? i = some o →
        ∃ n, ∃ keys : List Key, o = .number n ∧
          s.eventsBy i = keys.map .listedButMissing ++ [.sessionTornDown d.session n] := by
  obtain ⟨after, hrun, hreach, hmem, hzero⟩ := exists_run_since ⟨[], rfl⟩ hr t
  rw [← hbase] at hrun hreach
  have hzero : base.store.countersOf t = {} := by
    cases hl : (withTables limits).lastReset t h with
    | some r =>
      rw [hbase, hl]
      exact hzero r hl
    | none =>
      rw [hbase, hl]
      exact countersOf_withTables limits t
  have hlogs {i : CallRef} {job : Job} {o : Outcome} (hj : s.job? i = some job)
      (ho : job.outcome? = some o) : job.Logs (s.eventsBy i) := by
    rw [eventsBy_eq hr]
    exact ((Reachable.leaves hr hj).accounted ho t).logs
  refine ⟨fun which hw ↦ ?_, fun which hw hl ↦ ?_, fun i job o ↦ hlogs,
    fun before rest u i d o hh hu hj ho ↦ ?_⟩
  · have hnotes : (base.notes after).map (fun p ↦ p.2.adds t which) =
        (base.notes after).map fun p ↦ if s.tableOf? p.1 = some t then p.2.adds t which else 0 := by
      refine List.map_congr_left fun p hp ↦ ?_
      split
      · rfl
      · next hne =>
        obtain ⟨job, hj, hcounted⟩ := exists_job_of_note hreach hrun hp
        cases hn : p.2 with
        | counted u other amount =>
          have hu : u ≠ t := by
            rintro rfl
            exact hne (by rw [tableOf?, hj, Option.bind_some, hcounted _ _ _ hn])
          simp [Note.adds, hu]
        | _ => rfl
    rw [counters_of_notes hrun (fun e he ↦ (hmem e he).2) (fun e he ↦ hcount e (hmem e he).1),
      hzero, hnotes, sum_between (g := fun job ↦ .ofNat (which.share job.result?)) hreach hrun
        hthen hnow fun hj ho ht ↦ (hj.accounted ho t).counted ht which hw, ofNat_results]
    cases which <;> exact UInt64.zero_add _
  · have hlog : s.store.log.toList.drop base.store.log.size = (base.notes after).filterMap
        fun n ↦ n.2.event?.map fun event ↦ (n.1, event) := by
      rw [log_of_notes hrun, ← Array.length_toList, List.drop_left]
    rw [eventsOn, hlog, tells_of_notes (fun i ↦ s.tableOf? i = some t) which,
      sum_between (g := fun job ↦ which.share job.result?) hreach hrun
        hthen hnow fun hj ho ht ↦ (hj.accounted ho t).told ht which hw hl]
    refine Finset.sum_congr rfl fun i _ ↦ ?_
    cases s.job? i <;> rfl
  · have hsplit := hr
    rw [hh] at hsplit
    obtain ⟨v, hv, hrest⟩ := run?_append_eq_some.mp hsplit
    cases hu.symm.trans hv
    obtain ⟨last, hlast, hsame⟩ := sameTask_of_run hj hrest
    have hended := Job.outcome?_eq_some.mp ((outcome?_of_job? hlast).symm.trans ho)
    have hnotes : (withTables limits).notesOf h i ≠ [] := by
      rw [hh, notesOf, notes_append hu, ofCall_append, ne_eq, List.append_eq_nil_iff, not_and]
      exact fun _ ↦ notesOf_ne_nil hrest hj (by simp) (by simp) ho
    cases last with
    | tearingDown e phase =>
      cases hsame
      cases phase <;> cases hended
      have hleaves := Reachable.leaves hr hlast
      cases o with
      | number n =>
        obtain ⟨-, hnil⟩ | ⟨keys, first, hleft⟩ := hleaves
        · exact absurd hnil hnotes
        · exact ⟨n, keys, rfl, by rw [eventsBy_eq hr, hleft, Job.events_of_tallied]⟩
      | _ => exact hleaves.elim
    | _ => exact hsame.elim

/-- After a reset a buffer is allocated, found and freed, a key is missed, and the session is torn
down with the buffer it had before. -/
def countedAgain : History :=
  History.allocated ⟨7⟩ 4 4 ++ [(.addressable, .resetCounters 0)] ++
    History.call (.allocate 0 0 8 8) 2 14 ++ History.call (.lookup 0 ⟨⟨7⟩, ⟨1⟩⟩ .shared) 3 5 ++
    [(.addressable, .dropGuard 3)] ++ History.call (.free 0 0 ⟨1⟩) 4 13 ++
    History.call (.lookup 0 ⟨⟨7⟩, ⟨1⟩⟩ .shared) 5 5 ++ History.call (.teardown 0 0) 6 14

/-- One allocation and one buffer reclaimed have been counted since the reset, the events since then
tell the same, and the teardown has logged that it released one buffer. -/
theorem counted_since_reset : ∃ s base, (withTables [{}]).run? countedAgain = some s ∧
    (withTables [{}]).lastReset 0 countedAgain = some base ∧
    (s.store.countersOf 0).get .allocations = 1 ∧
    (s.store.countersOf 0).get .buffersReclaimed = 1 ∧
    ((s.eventsOn 0 base.store.log.size).map fun event ↦
      Counter.buffersReclaimed.share event.tells?).sum = 1 ∧
    s.eventsBy 6 = [.sessionTornDown ⟨7⟩ 1] := by
  have hrun : ((withTables [{}]).run? countedAgain).map (fun s ↦
      (s.calls.toList.all fun call ↦ call.job.outcome?.isSome, s.results 0 .allocations 2,
        s.results 0 .buffersReclaimed 2, s.eventsBy 6)) =
      some (true, 1, 1, [.sessionTornDown ⟨7⟩ 1]) := by
    decide +kernel
  have hreset : ((withTables [{}]).lastReset 0 countedAgain).map (fun r ↦
      (r.calls.toList.all fun call ↦ call.job.outcome?.isSome, r.calls.size)) = some (true, 2) := by
    decide +kernel
  have hbyHand : ∀ e ∈ countedAgain, (e.2 matches .count _ _ _) = false := by decide +kernel
  have hcount : ∀ e ∈ countedAgain, ∀ which amount, e.2 ≠ .count 0 which amount :=
    fun e he which amount hk ↦ by simpa [hk] using hbyHand e he
  obtain ⟨s, hs, h⟩ := Option.map_eq_some_iff.mp hrun
  obtain ⟨base, hbase, h'⟩ := Option.map_eq_some_iff.mp hreset
  simp only [Prod.mk.injEq] at h h'
  obtain ⟨hnow, hallocated, hreclaimed, hevents⟩ := h
  obtain ⟨hthen, hsize⟩ := h'
  obtain ⟨hcounters, htold, -, -⟩ := counters_log_and_results_agree hs hcount (by rw [hbase]; rfl)
    (idle_of_all hthen).restsAt (idle_of_all hnow).restsAt
  rw [hsize] at hcounters htold
  refine ⟨s, base, hs, hbase, ?_, ?_, ?_, hevents⟩
  · rw [hcounters _ (by decide), hallocated]
    rfl
  · rw [hcounters _ (by decide), hreclaimed]
    rfl
  · rw [htold _ (by decide) (by decide), hreclaimed]

end Service

end SessionBuffers
