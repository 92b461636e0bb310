import SessionBuffers.Proofs.Debt

/-!
# Services and ideal states

After every history an ideal state goes with the service (`Service.Coupled`): it differs from what
is in the store only by what calls under way owe. `Coupled.carry` is the rule for one step of a
call; it leaves to be shown only what concerns the call itself, since nobody else can be concerned
by what the call has locked.
-/

namespace SessionBuffers

/-- Whether the regions that an allocation asks for can be had. -/
def Supply.Meets (supply : Supply) : Request → Prop
  | .allocate _ _ user kernel => supply.regions user kernel = true
  | _ => True

namespace Service

/-- How an ideal state goes with a service after a history. -/
structure Coupled (h : History) (s : Service) (p : Ideal) : Prop where
  limits : p.limits = s.store.tables.map Table.limits
  sessions : p.sessions = s.store.registries.map Registry.session
  nextId : ∀ t, p.nextId t = s.store.nextIdOf t
  guard : ∀ i, p.guard i = s.granted? i
  answer : ∀ i, p.answer i = (s.job? i).bind fun job ↦ job.answer? s.store
  /-- Only the debts of a call set an index apart. -/
  index : ∀ t, (∀ i job, s.job? i = some job → job.indexDebt? ≠ some t) →
    p.index t = s.store.indexOf t
  roster : ∀ r, (∀ i job, s.job? i = some job → job.rosterDebt? ≠ some r) →
    p.roster r = s.store.rosterOf r
  /-- Live content is the same, once its allocation has taken effect. -/
  content : ∀ b, (s.store.contentOf b).released = false →
    (∀ i job, s.job? i = some job → job.unborn? ≠ some b) → p.content b = s.store.contentOf b
  born : ∀ b ∈ p.born, s.store.Has (.content b) ∧
    ∀ i job, s.job? i = some job → job.unborn? ≠ some b
  settled : ∀ b, s.store.Has (.content b) →
    b ∈ p.born ∨ ∃ i job, s.job? i = some job ∧ job.unborn? = some b
  owes : ∀ i job, s.job? i = some job → job.Owes p s.store
  /-- What is under way acts for the session of its registry and takes effect at one moment. -/
  named : ∀ i job instr, s.job? i = some job → job.progress = .next instr → job.Named s.store
  atomic : ∀ i job instr, s.job? i = some job → job.progress = .next instr →
    job.request.isAtomic = true
  /-- Regions have been supplied for every allocation that has some, and room for its key for
  every allocation that is about to draw it. -/
  supplied : ∀ i job, s.job? i = some job → job.unborn?.isSome →
    ∃ supply, (supply, .step i) ∈ h ∧ supply.Meets job.request
  room : ∀ i a b, s.job? i = some (.allocating a (.draw b)) →
    ∃ supply, (supply, .step i) ∈ h ∧ supply.slot a.user a.kernel = true

/-- What one step of a call takes from one ideal state to the next, as far as it concerns the call:
the ideal state changes only where the call has a lock alone, and what it owes is right again. -/
structure Carries (h : History) (i : CallRef) (s s' : Store) (job next : Job) (p p' : Ideal) :
    Prop where
  tables : s'.tables.map Table.limits = s.tables.map Table.limits
  limits : p'.limits = p.limits
  sessions : p'.sessions = s'.registries.map Registry.session
  nextId : ∀ t, p'.nextId t = s'.nextIdOf t
  guards : ∀ j, j ≠ i → p'.guard j = p.guard j
  answers : ∀ j, j ≠ i → p'.answer j = p.answer j
  guard : p'.guard i = next.granted?
  answer : p'.answer i = next.answer? s'
  index_kept : ∀ t, p'.index t = p.index t ∨ (.table t, .exclusive) ∈ job.held
  roster_kept : ∀ r, p'.roster r = p.roster r ∨ (.registry r, .exclusive) ∈ job.held
  content_kept : ∀ b, p'.content b = p.content b ∨ job.unborn? = some b
  index : ∀ t, (.table t, .exclusive) ∈ job.held → next.indexDebt? ≠ some t →
    p'.index t = s'.indexOf t
  roster : ∀ r, (.registry r, .exclusive) ∈ job.held → next.rosterDebt? ≠ some r →
    p'.roster r = s'.rosterOf r
  content : ∀ b, job.unborn? = some b → next.unborn? ≠ some b → p'.content b = s'.contentOf b
  born : ∀ b ∈ p'.born, b ∈ p.born ∨ job.unborn? = some b ∧ next.unborn? ≠ some b
  born_kept : ∀ b ∈ p.born, b ∈ p'.born
  settled : ∀ b, job.unborn? = some b → b ∈ p'.born ∨ next.unborn? = some b
  unborn : ∀ b, next.unborn? = some b → job.unborn? = some b ∨ ¬ s.Has (.content b)
  fresh : ∀ b, ¬ s.Has (.content b) → s'.Has (.content b) → next.unborn? = some b
  owes : next.Owes p' s'
  supplied : next.unborn?.isSome → job.unborn?.isSome ∨
    ∃ supply, (supply, .step i) ∈ h ∧ supply.Meets next.request

variable {limits : List Limits} {supply : Supply} {s s' : Service} {action : Action} {i j : CallRef}
  {job next other : Job} {h k : History} {p p' : Ideal}

theorem Sound.holds_of_indexDebt? (hs : s.Sound) (hj : s.job? i = some job) {t : TableRef}
    (h : job.indexDebt? = some t) : s.Holds i (.table t) .exclusive :=
  hs.locked.holds_of_held hj (by simp) (Job.held_of_indexDebt? h)

theorem Sound.holds_of_rosterDebt? (hs : s.Sound) (hj : s.job? i = some job) {r : RegistryRef}
    (h : job.rosterDebt? = some r) : s.Holds i (.registry r) .exclusive :=
  hs.locked.holds_of_held hj (by simp) (Job.held_of_rosterDebt? h)

/-- The index of a table is the ideal one for a call that holds the table and has no debt there. -/
theorem Coupled.index_of_holds (hc : s.Coupled h p) (hs : s.Sound) (hj : s.job? i = some job)
    {t : TableRef} {mode : Mode} (hh : s.Holds i (.table t) mode) (hd : job.indexDebt? ≠ some t) :
    p.index t = s.store.indexOf t := by
  refine hc.index t fun j other hjo ho ↦ ?_
  obtain ⟨rfl, -⟩ := hs.locked.unique (hs.holds_of_indexDebt? hjo ho) hh
  cases hj.symm.trans hjo
  exact hd ho

/-- The roster of a registry is the ideal one for a call that holds the registry and has no debt
there. -/
theorem Coupled.roster_of_holds (hc : s.Coupled h p) (hs : s.Sound) (hj : s.job? i = some job)
    {r : RegistryRef} {mode : Mode} (hh : s.Holds i (.registry r) mode)
    (hd : job.rosterDebt? ≠ some r) : p.roster r = s.store.rosterOf r := by
  refine hc.roster r fun j other hjo ho ↦ ?_
  obtain ⟨rfl, -⟩ := hs.locked.unique (hs.holds_of_rosterDebt? hjo ho) hh
  cases hj.symm.trans hjo
  exact hd ho

/-! ### What concerns the call that makes a step -/

/-- Where another call has something to settle in an index, a step changes neither. -/
private theorem Carries.index_apart (hk : Carries k i s.store s'.store job next p p')
    (hs : s.Sound) (hd : s.Does supply (.step i) s') (hj : s.job? i = some job) (hne : j ≠ i)
    (hjo : s.job? j = some other) {t : TableRef} (ht : other.indexDebt? = some t) :
    p'.index t = p.index t ∧ s'.store.indexOf t = s.store.indexOf t := by
  obtain ⟨instr, _, hn, -, -⟩ := hd.job_step hj
  have hholds := hs.holds_of_indexDebt? hjo ht
  refine ⟨(hk.index_kept t).resolve_right fun hh ↦ ?_,
    hs.locked.index_kept hd hholds (by simpa using Ne.symm hne)⟩
  exact hne (hs.locked.unique (hs.holds_of_next hj hn hh) hholds).1

/-- Where another call has something to settle in a roster, a step changes neither. -/
private theorem Carries.roster_apart (hk : Carries k i s.store s'.store job next p p')
    (hs : s.Sound) (hd : s.Does supply (.step i) s') (hj : s.job? i = some job) (hne : j ≠ i)
    (hjo : s.job? j = some other) {r : RegistryRef} (hr : other.rosterDebt? = some r) :
    p'.roster r = p.roster r ∧ s'.store.rosterOf r = s.store.rosterOf r := by
  obtain ⟨instr, _, hn, -, -⟩ := hd.job_step hj
  have hholds := hs.holds_of_rosterDebt? hjo hr
  refine ⟨(hk.roster_kept r).resolve_right fun hh ↦ ?_,
    hs.locked.roster_kept hd hholds (by simpa using Ne.symm hne)⟩
  exact hne (hs.locked.unique (hs.holds_of_next hj hn hh) hholds).1

/-- What one call has not yet set up is live, and no other call's to release. -/
private theorem Sound.unborn_apart (hs : s.Sound) (hj : s.job? i = some job) (hne : j ≠ i)
    (hjo : s.job? j = some other) {b : StorageRef} (hb : other.unborn? = some b) :
    job.owned? ≠ some b ∧ (s.store.contentOf b).released = false := by
  obtain ⟨call, hcall, rfl⟩ := job?_eq_some.mp hj
  obtain ⟨c, hc, rfl⟩ := job?_eq_some.mp hjo
  have ho := Job.owned?_of_unborn? hb
  exact ⟨fun hi ↦ hne (hs.owner_unique hc hcall ho hi), (hs.owned hc ho).1⟩

private theorem Coupled.index_carried (hc : s.Coupled h p) (hd : s.Does supply (.step i) s')
    (hj : s.job? i = some job) (hj' : s'.job? i = some next)
    (hk : Carries k i s.store s'.store job next p p') {t : TableRef}
    (hno : ∀ j other, s'.job? j = some other → other.indexDebt? ≠ some t) :
    p'.index t = s'.store.indexOf t := by
  obtain ⟨instr, _, hn, hrun, -⟩ := hd.job_step hj
  by_cases hh : (.table t, .exclusive) ∈ job.held
  · exact hk.index t hh (hno i next hj')
  · rw [(hk.index_kept t).resolve_right hh, (Instr.changes_of_run hrun).index,
      (Job.guarded hn).onIndex_eq hh]
    refine hc.index t fun j other hjo hdebt ↦ ?_
    by_cases hji : j = i
    · subst hji
      cases hj.symm.trans hjo
      exact hh (Job.held_of_indexDebt? hdebt)
    · exact hno j other ((hd.job_other hji).trans hjo) hdebt

private theorem Coupled.roster_carried (hc : s.Coupled h p) (hd : s.Does supply (.step i) s')
    (hj : s.job? i = some job) (hj' : s'.job? i = some next)
    (hk : Carries k i s.store s'.store job next p p') {r : RegistryRef}
    (hno : ∀ j other, s'.job? j = some other → other.rosterDebt? ≠ some r) :
    p'.roster r = s'.store.rosterOf r := by
  obtain ⟨instr, _, hn, hrun, -⟩ := hd.job_step hj
  by_cases hh : (.registry r, .exclusive) ∈ job.held
  · exact hk.roster r hh (hno i next hj')
  · rw [(hk.roster_kept r).resolve_right hh, (Instr.changes_of_run hrun).roster,
      (Job.guarded hn).onRoster_eq hh]
    refine hc.roster r fun j other hjo hdebt ↦ ?_
    by_cases hji : j = i
    · subst hji
      cases hj.symm.trans hjo
      exact hh (Job.held_of_rosterDebt? hdebt)
    · exact hno j other ((hd.job_other hji).trans hjo) hdebt

private theorem Coupled.content_carried (hc : s.Coupled h p) (hs : s.Sound)
    (hd : s.Does supply (.step i) s') (hj : s.job? i = some job) (hj' : s'.job? i = some next)
    (hk : Carries k i s.store s'.store job next p p') {b : StorageRef}
    (hlive : (s'.store.contentOf b).released = false)
    (hno : ∀ j other, s'.job? j = some other → other.unborn? ≠ some b) :
    p'.content b = s'.store.contentOf b := by
  by_cases hu : job.unborn? = some b
  · exact hk.content b hu (hno i next hj')
  rw [(hk.content_kept b).resolve_right hu]
  by_cases hb : s.store.Has (.content b)
  · obtain hsame | ⟨-, -, -, -, hgone⟩ := (hs.moves hd hj hj').content hb
    · rw [hsame] at hlive ⊢
      refine hc.content b hlive fun j other hjo hub ↦ ?_
      by_cases hji : j = i
      · subst hji
        cases hj.symm.trans hjo
        exact hu hub
      · exact hno j other ((hd.job_other hji).trans hjo) hub
    · rw [hgone] at hlive
      cases hlive
  · exact absurd (hk.fresh b hb (Store.has_of_unreleased hlive)) (hno i next hj')

private theorem Coupled.born_carried (hc : s.Coupled h p) (hs : s.Sound)
    (hd : s.Does supply (.step i) s') (hj : s.job? i = some job) (hj' : s'.job? i = some next)
    (hk : Carries k i s.store s'.store job next p p') {b : StorageRef} (hb : b ∈ p'.born) :
    s'.store.Has (.content b) ∧
      ∀ j other, s'.job? j = some other → other.unborn? ≠ some b := by
  obtain ⟨instr, _, hn, hrun, -⟩ := hd.job_step hj
  have hchanges := Instr.changes_of_run hrun
  obtain hb | ⟨hu, hnot⟩ := hk.born b hb
  · obtain ⟨hhas, hno⟩ := hc.born b hb
    refine ⟨hchanges.has _ hhas, fun j other hjo hub ↦ ?_⟩
    obtain ⟨rfl, rfl⟩ | ⟨-, hjo⟩ := hd.job_of_step hj' hjo
    · obtain hu | hnew := hk.unborn b hub
      · exact hno j _ hj hu
      · exact hnew hhas
    · exact hno j other hjo hub
  · obtain ⟨call, hcall, rfl⟩ := job?_eq_some.mp hj
    have hlive := (hs.owned hcall (Job.owned?_of_unborn? hu)).1
    refine ⟨hchanges.has _ (Store.has_of_unreleased hlive), fun j other hjo hub ↦ ?_⟩
    obtain ⟨rfl, rfl⟩ | ⟨hne, hjo⟩ := hd.job_of_step hj' hjo
    · exact hnot hub
    · exact (hs.unborn_apart hj hne hjo hub).1 (Job.owned?_of_unborn? hu)

private theorem Coupled.settled_carried (hc : s.Coupled h p) (hd : s.Does supply (.step i) s')
    (hj : s.job? i = some job) (hj' : s'.job? i = some next)
    (hk : Carries k i s.store s'.store job next p p') {b : StorageRef}
    (hb : s'.store.Has (.content b)) :
    b ∈ p'.born ∨ ∃ j other, s'.job? j = some other ∧ other.unborn? = some b := by
  by_cases hhas : s.store.Has (.content b)
  · obtain hb | ⟨j, other, hjo, hub⟩ := hc.settled b hhas
    · exact .inl (hk.born_kept b hb)
    by_cases hji : j = i
    · subst hji
      cases hj.symm.trans hjo
      exact (hk.settled b hub).imp_right fun h ↦ ⟨j, next, hj', h⟩
    · exact .inr ⟨j, other, (hd.job_other hji).trans hjo, hub⟩
  · exact .inr ⟨i, next, hj', hk.fresh b hhas hb⟩

private theorem Coupled.owes_carried (hc : s.Coupled h p) (hs : s.Sound)
    (hd : s.Does supply (.step i) s') (hj : s.job? i = some job) (hj' : s'.job? i = some next)
    (hk : Carries k i s.store s'.store job next p p') (hjo : s'.job? j = some other) :
    other.Owes p' s'.store := by
  have hm := hs.moves hd hj hj'
  obtain ⟨instr, _, -, hrun, -⟩ := hd.job_step hj
  obtain ⟨rfl, rfl⟩ | ⟨hne, hjo⟩ := hd.job_of_step hj' hjo
  · exact hk.owes
  refine (hc.owes j other hjo).congr hk.limits (fun t ↦ hk.index_apart hs hd hj hne hjo)
    (fun r ↦ hk.roster_apart hs hd hj hne hjo) (fun b hb ↦ ?_) fun b hb ↦ ?_
  · obtain ⟨hnot, hlive⟩ := hs.unborn_apart hj hne hjo hb
    exact (hm.content (Store.has_of_unreleased hlive)).resolve_right fun h ↦ hnot h.1
  · refine ⟨(Instr.changes_of_run hrun).has _ hb.1, ?_⟩
    obtain hsame | ⟨-, -, -, -, hgone⟩ := hm.content hb.1
    · exact hsame ▸ hb.2
    · exact hgone

/-- An allocation comes to draw its number when there is room for the key. -/
private theorem slot_of_run {store store' : Store} {instr : Instr Job} {a : Allocation}
    {b : StorageRef} (hn : job.progress = .next instr)
    (hrun : instr.run supply i store = some (.allocating a (.draw b), store')) :
    supply.slot a.user a.kernel = true := by
  cases job <;> obtain ⟨step, hp, rfl⟩ := Progress.map_eq_next.mp hn <;>
    obtain ⟨x, hx, he⟩ := Instr.run_map_eq_some.mp hrun <;> cases he
  next phase =>
  have hnot (h : step.Always fun x ↦ x ≠ .draw b) : supply.slot a.user a.kernel = true :=
    absurd rfl (h.of_run hx)
  cases phase with
  | checkLimits =>
    cases hp
    refine hnot fun limits ↦ ?_
    dsimp only
    split <;> simp
  | reserve c =>
    cases hp
    obtain ⟨-, ⟨hslot, -⟩ | ⟨-, he⟩, -⟩ := Instr.run_reserve.mp hx
    · exact hslot
    · cases he
  | ended o => cases hp
  | _ =>
    cases hp
    exact hnot (by simp [Instr.Always])

/-- The step rule: what concerns the call that makes the step is enough. -/
theorem Coupled.carry (hc : s.Coupled h p) (hr : Reachable limits s)
    (hd : s.Does supply (.step i) s') (hj : s.job? i = some job) (hj' : s'.job? i = some next)
    (hk : Carries (h ++ [(supply, .step i)]) i s.store s'.store job next p p') :
    s'.Coupled (h ++ [(supply, .step i)]) p' := by
  have hs := hr.sound
  obtain ⟨instr, x, hn, hrun, hx⟩ := hd.job_step hj
  cases hj'.symm.trans hx
  have hsession := (Instr.changes_of_run hrun).session
  obtain ⟨hrequest, hnamed⟩ := (Job.kept_of_next hn).of_run hrun
  have hscoped {j : CallRef} {other : Job} (hjo : s.job? j = some other) :
      other.Scoped s.store := by
    obtain ⟨call, hcall, rfl⟩ := job?_eq_some.mp hjo
    exact hr.scoped.jobs hcall
  constructor
  case limits => rw [hk.limits, hc.limits, hk.tables]
  case sessions => exact hk.sessions
  case nextId => exact hk.nextId
  case guard =>
    intro j
    obtain ⟨call, _, _, hcall, hn, -, hcalls⟩ := hd.calls_step
    by_cases hji : j = i
    · subst hji
      obtain rfl : _ = next := by simpa [job?, hcalls] using hj'
      simp [hk.guard, granted?, hcalls, hs.locked.not_dropped hcall hn]
    · rw [hk.guards j hji, hc.guard, granted?, granted?, hcalls, if_neg (Ne.symm hji)]
  case answer =>
    intro j
    by_cases hji : j = i
    · subst hji
      simp [hk.answer, hj']
    · rw [hk.answers j hji, hc.answer, hd.job_other hji]
      cases hjo : s.job? j with
      | none => rfl
      | some other =>
        exact (Job.answer?_congr fun t ht ↦ (hk.index_apart hs hd hj hji hjo ht).2).symm
  case index => exact fun t ↦ hc.index_carried hd hj hj' hk
  case roster => exact fun r ↦ hc.roster_carried hd hj hj' hk
  case content => exact fun b ↦ hc.content_carried hs hd hj hj' hk
  case born => exact fun b ↦ hc.born_carried hs hd hj hj' hk
  case settled => exact fun b ↦ hc.settled_carried hd hj hj' hk
  case owes => exact fun j other ↦ hc.owes_carried hs hd hj hj' hk
  case named =>
    intro j other _ hjo hgoes
    obtain ⟨rfl, rfl⟩ | ⟨-, hjo⟩ := hd.job_of_step hj' hjo
    · exact (hnamed _).mpr ((hc.named j _ _ hj hn).congr (hscoped hj) hsession)
    · exact (hc.named j _ _ hjo hgoes).congr (hscoped hjo) hsession
  case atomic =>
    intro j other _ hjo hgoes
    obtain ⟨rfl, rfl⟩ | ⟨-, hjo⟩ := hd.job_of_step hj' hjo
    · exact hrequest ▸ hc.atomic j _ _ hj hn
    · exact hc.atomic j other _ hjo hgoes
  case supplied =>
    intro j other hjo hu
    obtain ⟨rfl, rfl⟩ | ⟨-, hjo⟩ := hd.job_of_step hj' hjo
    · obtain hu | hgiven := hk.supplied hu
      · obtain ⟨σ, hmem, hσ⟩ := hc.supplied j _ hj hu
        exact ⟨σ, List.mem_append_left _ hmem, hrequest ▸ hσ⟩
      · exact hgiven
    · obtain ⟨σ, hmem, hσ⟩ := hc.supplied j other hjo hu
      exact ⟨σ, List.mem_append_left _ hmem, hσ⟩
  case room =>
    intro j a b hjo
    obtain ⟨rfl, rfl⟩ | ⟨-, hjo⟩ := hd.job_of_step hj' hjo
    · exact ⟨supply, List.mem_concat_self, slot_of_run hn hrun⟩
    · obtain ⟨σ, hmem, hσ⟩ := hc.room j a b hjo
      exact ⟨σ, List.mem_append_left _ hmem, hσ⟩

end Service

end SessionBuffers
