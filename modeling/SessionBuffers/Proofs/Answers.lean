import SessionBuffers.Proofs.Holding

/-!
# What a call can end with

Each kind of job ends only with answers of its own kind: only lookups and accesses end with a
guard, for the very key or handle they were asked for, and only allocations end with a handle.
-/

namespace SessionBuffers

/-! ### Answers by operation -/

/-- What an allocation answers: a handle of its own session, or why it was refused. -/
def Allocation.Answers (a : Allocation) (o : Outcome) : Prop :=
  (∃ h : Handle, o = .handle h ∧ h.key.session = a.session) ∨ ∃ why, o = .refused why

/-- What an attachment answers: a registry or a session, or why it was refused. -/
def Attachment.Answers (o : Outcome) : Prop :=
  (∃ r, o = .registry r) ∨ (∃ c, o = .session c) ∨ ∃ why, o = .refused why

/-- What a free answers: that it is done, or that the key was not found. -/
def Removal.Answers (f : Removal) (o : Outcome) : Prop :=
  o = .done ∨ o = .refused (.notFound f.key)

/-- What a teardown answers: a number. -/
def Teardown.Answers (o : Outcome) : Prop := ∃ n, o = .number n

/-- What a lookup answers: a guard for its key, or that the key was not found. -/
def Lookup.Answers (l : Lookup) (o : Outcome) : Prop :=
  (∃ b, o = .guard ⟨⟨l.key, b⟩, l.mode⟩) ∨ o = .refused (.notFound l.key)

/-- What an access answers: a guard for its handle, or that the buffer was not found. -/
def Access.Answers (a : Access) (o : Outcome) : Prop :=
  o = .guard ⟨a.handle, a.mode⟩ ∨ o = .refused (.notFound a.handle.key)

/-- What a question is answered: what some index says to it. -/
def Inspection.Answers (i : Inspection) (o : Outcome) : Prop :=
  ∃ index, o = i.question.answer index

/-- What a direct use of a registry answers. -/
def RosterCall.Answers (o : Outcome) : Prop :=
  o = .done ∨ (∃ b, o = .flag b) ∨ (∃ n, o = .number n) ∨ (∃ ks, o = .keys ks) ∨ o = .busy ∨
    o = .misuse

/-- What a drawing answers: a number to hand out. -/
def Drawing.Answers (o : Outcome) : Prop := ∃ id, o = .id id

/-- What a job of its kind answers. -/
def Job.Answers : Job → Outcome → Prop
  | attaching _ _ => Attachment.Answers
  | allocating a _ => a.Answers
  | freeing f _ => f.Answers
  | tearingDown _ _ => Teardown.Answers
  | lookingUp l _ => l.Answers
  | accessing a _ => a.Answers
  | inspecting i _ => i.Answers
  | editing _ _ => RosterCall.Answers
  | drawing _ _ => Drawing.Answers

/-- Whether a job has ended, or is bound to end, with an answer of its kind; an allocation that has
drawn a key has one of its own session. -/
def Job.Proper : Job → Prop
  | attaching _ (.ended o) => Attachment.Answers o
  | allocating a phase => match phase with
    | .insert _ key | .unlockTable _ key | .enlist _ key | .unlockRegistry _ key
    | .unlockContent _ key | .count _ key | .report _ key => key.session = a.session
    | .ended o => a.Answers o
    | _ => True
  | freeing f (.ended o) => f.Answers o
  | tearingDown _ (.ended o) => Teardown.Answers o
  | lookingUp l (.ended o) => l.Answers o
  | accessing a (.ended o) => a.Answers o
  | inspecting i (.unlockTable o) | inspecting i (.ended o) => i.Answers o
  | editing _ (.unlock o) | editing _ (.ended o) => RosterCall.Answers o
  | drawing _ (.ended o) => Drawing.Answers o
  | _ => True

/-! ### Answers from step to step -/

theorem Instr.always_map {σ τ : Type} (f : σ → τ) (P : τ → Prop) (instr : Instr σ) :
    (instr.map f).Always P ↔ instr.Always fun x ↦ P (f x) := by
  cases instr <;> rfl

theorem Teardown.proper_resume (d : Teardown) (s : Sweep) :
    Job.Proper (.tearingDown d (.resume s)) := by
  unfold Phase.resume
  split <;> trivial

theorem RosterCall.proper_act (c : RosterCall) :
    c.act.Always fun phase ↦ Job.Proper (.editing c phase) := by
  unfold act
  split <;> simp [Instr.Always, Job.Proper, Answers]

/-- A step leaves the answers of a job of their kind. -/
theorem Job.Proper.step {job : Job} {instr : Instr Job} (h : job.Proper)
    (hn : job.progress = .next instr) : instr.Always Job.Proper := by
  cases job <;> obtain ⟨step, hp, rfl⟩ := Progress.map_eq_next.mp hn <;> rw [Instr.always_map]
  case attaching a phase =>
    cases phase with
    | start =>
      simp only [Attachment.progress] at hp
      split at hp <;> cases hp <;>
        simp [Instr.Always, Attachment.enroll, Proper, Attachment.Answers]
    | report t r =>
      cases hp
      unfold Attachment.logged
      simp only [Instr.Always]
      split <;> simp [Proper, Attachment.Answers]
    | _ => cases hp <;> simp [Instr.Always, Attachment.enroll, Proper, Attachment.Answers]
  case allocating a phase =>
    cases phase with
    | checkLimits =>
      cases hp
      intro limits
      dsimp only
      split <;> trivial
    | _ => cases hp <;> simp_all [Instr.Always, Proper, Allocation.Answers]
  case freeing f phase =>
    cases phase with
    | find =>
      cases hp
      intro index
      dsimp only
      split <;> trivial
    | checkOwner b =>
      cases hp
      intro roster
      dsimp only
      split <;> trivial
    | _ => cases hp <;> simp [Instr.Always, Proper, Removal.Answers]
  case tearingDown d phase =>
    cases phase with
    | find key s =>
      cases hp
      intro index
      dsimp only
      split <;> trivial
    | drain first =>
      cases hp
      exact fun keys ↦ d.proper_resume _
    | reportMissing key s =>
      cases hp
      exact d.proper_resume _
    | unlockContent key b s =>
      cases hp
      exact d.proper_resume _
    | countReleased s =>
      cases hp
      simp only [Instr.Always]
      split <;> trivial
    | _ => cases hp <;> simp [Instr.Always, Proper, Teardown.Answers]
  case lookingUp l phase =>
    cases phase with
    | find =>
      cases hp
      intro index
      dsimp only
      split <;> trivial
    | _ => cases hp <;> simp [Instr.Always, Proper, Lookup.Answers]
  case accessing a phase =>
    cases phase with
    | check =>
      cases hp
      intro content
      dsimp only
      split
      · trivial
      · exact .inl rfl
    | _ => cases hp <;> simp [Instr.Always, Proper, Access.Answers]
  case inspecting i phase =>
    cases phase with
    | read =>
      cases hp
      exact fun index ↦ ⟨index, rfl⟩
    | unlockTable o =>
      cases hp
      exact h
    | _ => cases hp <;> trivial
  case editing c phase =>
    cases phase with
    | act =>
      cases hp
      exact c.proper_act
    | unlock o =>
      cases hp
      exact h
    | _ => cases hp <;> simp [Instr.Always, Proper, RosterCall.Answers]
  case drawing d phase =>
    cases phase <;> cases hp
    exact fun id ↦ ⟨id, rfl⟩

/-- A request begins as a job that ends only with answers of its kind. -/
theorem Job.proper_of_ofRequest? {s : Store} {request : Request} {job : Job}
    (h : ofRequest? s request = some job) : job.Proper := by
  cases ofRequest?_eq_some.mp h with
  | @roster r action hr =>
    cases action <;> simp only [RosterCall.start] <;> try trivial
    split
    · trivial
    · simp [Proper, RosterCall.Answers]
  | _ => trivial

/-! ### What jobs end with -/

theorem Job.outcome?_eq_some {job : Job} {o : Outcome} :
    job.outcome? = some o ↔ job.progress = .ended o := by
  unfold outcome?
  split
  · next p hp => simp [hp]
  · next hp => simp [hp]

/-- A job that has ended answered as its kind does. -/
theorem Job.Proper.answers {job : Job} (h : job.Proper) {o : Outcome}
    (ho : job.outcome? = some o) : job.Answers o := by
  rw [outcome?_eq_some] at ho
  cases job with
  | attaching a phase =>
    cases phase with
    | start =>
      simp only [progress, Attachment.progress] at ho
      split at ho <;> cases ho
    | ended p =>
      cases ho
      exact h
    | _ => cases ho
  | _ _ phase =>
    cases phase <;> cases ho
    exact h

/-- A job that ends with a guard is a lookup of its key or an access to its buffer. -/
theorem Job.Proper.guard {job : Job} (h : job.Proper) {g : Guard}
    (ho : job.outcome? = some (.guard g)) :
    (∃ l : Lookup, job = .lookingUp l (.ended (.guard g)) ∧ g.handle.key = l.key ∧
      g.mode = l.mode) ∨
    ∃ a : Access, job = .accessing a (.ended (.guard g)) ∧ g.handle = a.handle ∧
      g.mode = a.mode := by
  have ha := h.answers ho
  rw [outcome?_eq_some] at ho
  cases job with
  | lookingUp l phase =>
    cases phase <;> cases ho
    obtain ⟨b, hb⟩ | hb := ha <;> cases hb
    exact .inl ⟨l, rfl, rfl, rfl⟩
  | accessing a phase =>
    cases phase <;> cases ho
    obtain hb | hb := ha <;> cases hb
    exact .inr ⟨a, rfl, rfl, rfl⟩
  | inspecting i phase =>
    obtain ⟨index, hi⟩ := ha
    cases hq : i.question <;> simp [hq, Question.answer] at hi
  | attaching a phase => simp [Answers, Attachment.Answers] at ha
  | allocating a phase => simp [Answers, Allocation.Answers] at ha
  | freeing f phase => simp [Answers, Removal.Answers] at ha
  | tearingDown d phase => simp [Answers, Teardown.Answers] at ha
  | editing c phase => simp [Answers, RosterCall.Answers] at ha
  | drawing d phase => simp [Answers, Drawing.Answers] at ha

/-- A job that ends with a handle is an allocation. -/
theorem Job.Proper.handle {job : Job} (h : job.Proper) {b : Handle}
    (ho : job.outcome? = some (.handle b)) :
    ∃ a : Allocation, job = .allocating a (.ended (.handle b)) ∧ b.key.session = a.session := by
  have ha := h.answers ho
  rw [outcome?_eq_some] at ho
  cases job with
  | allocating a phase =>
    cases phase <;> cases ho
    obtain ⟨_, hb, hs⟩ | ⟨_, hb⟩ := ha <;> cases hb
    exact ⟨a, rfl, hs⟩
  | inspecting i phase =>
    obtain ⟨index, hi⟩ := ha
    cases hq : i.question <;> simp [hq, Question.answer] at hi
  | attaching a phase => simp [Answers, Attachment.Answers] at ha
  | freeing f phase => simp [Answers, Removal.Answers] at ha
  | tearingDown d phase => simp [Answers, Teardown.Answers] at ha
  | lookingUp l phase => simp [Answers, Lookup.Answers] at ha
  | accessing a phase => simp [Answers, Access.Answers] at ha
  | editing c phase => simp [Answers, RosterCall.Answers] at ha
  | drawing d phase => simp [Answers, Drawing.Answers] at ha

/-- A job that ends with a guard holds the content under it. -/
theorem Job.Proper.held_of_guard {job : Job} (h : job.Proper) {g : Guard}
    (ho : job.outcome? = some (.guard g)) :
    (.content g.handle.storage, g.mode) ∈ job.held := by
  obtain ⟨l, rfl, -⟩ | ⟨a, rfl, -⟩ := h.guard ho
  · exact List.mem_singleton_self _
  · exact List.mem_singleton_self _

/-! ### What a job is for -/

/-- Whether two jobs are for the same, wherever they stand. -/
def Job.SameTask : Job → Job → Prop
  | attaching a _, attaching b _ => a = b
  | allocating a _, allocating b _ => a = b
  | freeing f _, freeing g _ => f = g
  | tearingDown d _, tearingDown e _ => d = e
  | lookingUp l _, lookingUp m _ => l = m
  | accessing a _, accessing b _ => a = b
  | inspecting i _, inspecting j _ => i = j
  | editing c _, editing e _ => c = e
  | drawing d _, drawing e _ => d = e
  | _, _ => False

theorem Job.SameTask.refl (job : Job) : job.SameTask job := by
  cases job <;> rfl

theorem Job.SameTask.trans {job next last : Job} (h : job.SameTask next)
    (h' : next.SameTask last) : job.SameTask last := by
  cases job <;> cases next <;> cases h <;> cases last <;> exact h'

/-- A step never changes what its job is for. -/
theorem Job.sameTask_of_run {supply : Supply} {who : CallRef} {s s' : Store} {job next : Job}
    {instr : Instr Job} (hn : job.progress = .next instr)
    (hr : instr.run supply who s = some (next, s')) : job.SameTask next := by
  cases job <;> obtain ⟨step, -, rfl⟩ := Progress.map_eq_next.mp hn <;>
    obtain ⟨x, -, rfl⟩ := Instr.run_map_eq_some.mp hr <;> rfl

namespace Service

/-- A call is for the same after an action. -/
theorem Does.sameTask {supply : Supply} {s s' : Service} {action : Action} {i : CallRef}
    {job : Job} (hd : s.Does supply action s') (hj : s.job? i = some job) :
    ∃ next, s'.job? i = some next ∧ job.SameTask next := by
  by_cases hstep : action = .step i
  · subst hstep
    obtain ⟨instr, next, hn, hr, hnext⟩ := hd.job_step hj
    exact ⟨next, hnext, Job.sameTask_of_run hn hr⟩
  · exact ⟨job, hd.job_kept hj hstep, .refl job⟩

/-- A call is for the same after any history. -/
theorem sameTask_of_run {s s' : Service} {h : History} {i : CallRef} {job : Job}
    (hj : s.job? i = some job) (hr : s.run? h = some s') :
    ∃ last, s'.job? i = some last ∧ job.SameTask last := by
  refine run_induct (P := fun u ↦ ∃ last, u.job? i = some last ∧ job.SameTask last) ?_
    ⟨job, hj, .refl job⟩ hr
  rintro u supply action u' ⟨last, hlast, hsame⟩ - hact
  obtain ⟨next, hnext, hsame'⟩ := (does_of_act? hact).sameTask hlast
  exact ⟨next, hnext, hsame.trans hsame'⟩

/-- A step of a teardown takes it to its next position. -/
theorem Does.teardown_step {supply : Supply} {s s' : Service} {i : CallRef} {d : Teardown}
    {phase : Teardown.Phase} (hd : s.Does supply (.step i) s')
    (hj : s.job? i = some (.tearingDown d phase)) :
    ∃ instr next, d.progress phase = .next instr ∧
      instr.run supply i s.store = some (next, s'.store) ∧
      s'.job? i = some (.tearingDown d next) := by
  obtain ⟨_, _, hn, hr, hj'⟩ := hd.job_step hj
  obtain ⟨instr, hp, rfl⟩ := Progress.map_eq_next.mp hn
  obtain ⟨next, hrun, rfl⟩ := Instr.run_map_eq_some.mp hr
  exact ⟨instr, next, hp, hrun, hj'⟩

/-- An action leaves the answers of every call of their kind. -/
theorem Does.proper {supply : Supply} {s s' : Service} {action : Action}
    (hd : s.Does supply action s')
    (hs : ∀ {i : CallRef} {call : Call}, s.calls[i]? = some call → call.job.Proper)
    {i : CallRef} {call : Call} (hc : s'.calls[i]? = some call) : call.job.Proper := by
  obtain ⟨hc, -⟩ | ⟨_, _, -, hj, -, rfl, -⟩ | ⟨_, _, _, -, hcall, hp, hr, rfl⟩ |
    ⟨_, _, -, hcall, -, rfl⟩ := hd.call_cases hc
  · exact hs hc
  · exact Job.proper_of_ofRequest? hj
  · exact Instr.Always.of_run (P := Job.Proper) ((hs hcall).step hp) hr
  · have hproper := hs hcall
    exact hproper

end Service

end SessionBuffers
