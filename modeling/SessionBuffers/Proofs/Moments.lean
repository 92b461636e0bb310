import SessionBuffers.Proofs.Coupling

/-!
# The moment at which a call takes effect

Every step of a call leaves the ideal state alone, or it is the one step at which the call takes
effect (`Takes`). An allocation takes effect when it draws its number, under all three locks; a free
when it erases the key, with the content in its hands; a lookup when it is given the content; a
teardown only when it gives the registry back, since until then others may still use what it is
going to release. Everything that is refused takes effect when the reason is found.
-/

namespace SessionBuffers

/-- Whether a supply is made up of what was supplied at steps of a call: of storage as at one of
them, and of room for a key as at another. -/
def History.Offers (h : History) (i : CallRef) (supply : Supply) : Prop :=
  ∃ σ τ : Supply, (σ, .step i) ∈ h ∧ (τ, .step i) ∈ h ∧ supply = { σ with slot := τ.slot }

/-- What was supplied at the last step is offered. -/
theorem History.Offers.last (h : History) (i : CallRef) (supply : Supply) :
    (h ++ [(supply, Action.step i)]).Offers i supply :=
  ⟨supply, supply, List.mem_concat_self, List.mem_concat_self, rfl⟩

/-- What stays between a job and the next when a step changes nothing that can be in debt. -/
structure Job.Continues (p : Ideal) (s : Store) (job next : Job) : Prop where
  indexDebt : next.indexDebt? = job.indexDebt?
  rosterDebt : next.rosterDebt? = job.rosterDebt?
  unborn : next.unborn? = job.unborn?
  owes : next.Owes p s

namespace Service

/-- What an action of a call for a request makes of the ideal state: nothing, or the call takes
effect with one of the supplies that it was given. -/
inductive Takes (given : Supply → Prop) (i : CallRef) (request : Request) (p : Ideal) :
    Ideal → Prop
  | rest : Takes given i request p p
  | effect {supply : Supply} {b : StorageRef} (hs : given supply)
    (hr : p.Ready (.call i supply b request)) :
    Takes given i request p (p.after (.call i supply b request))

/-- A step that goes with an ideal state, whatever it takes. -/
def Goes (h : History) (i : CallRef) (s s' : Store) (job next : Job) (p : Ideal) : Prop :=
  ∃ p', Takes (h.Offers i) i job.request p p' ∧
    Carries h i s s' job next p p'

variable {limits : List Limits} {supply : Supply} {s : Service} {store : Store} {i : CallRef}
  {job next : Job} {instr : Instr Job} {h k : History} {p p' : Ideal}

namespace Coupled

theorem has_table (hc : s.Coupled h p) {t : TableRef} :
    s.store.Has (.table t) ↔ t < p.limits.size := by
  rw [Store.has_table, hc.limits, Array.size_map]

theorem has_registry (hc : s.Coupled h p) {r : RegistryRef} :
    s.store.Has (.registry r) ↔ r < p.sessions.size := by
  rw [Store.has_registry, hc.sessions, Array.size_map]

theorem limitsOf (hc : s.Coupled h p) (t : TableRef) : p.limitsOf t = s.store.limitsOf t := by
  rw [Ideal.limitsOf, hc.limits, Array.getElem?_map, Store.limitsOf]

theorem sessionOf (hc : s.Coupled h p) (r : RegistryRef) :
    p.sessionOf r = s.store.sessionOf r := by
  rw [Ideal.sessionOf, hc.sessions, Array.getElem?_map, Store.sessionOf]

/-- Storage that does not exist has not been set up. -/
theorem not_born (hc : s.Coupled h p) : s.store.storages.size ∉ p.born := fun hb ↦
  Nat.lt_irrefl _ (Store.has_content.mp (hc.born _ hb).1)

theorem answer_eq (hc : s.Coupled h p) (hj : s.job? i = some job) :
    p.answer i = job.answer? s.store := by
  rw [hc.answer, hj]
  rfl

theorem guard_eq (hc : s.Coupled h p) (hs : s.Sound) (hj : s.job? i = some job)
    (hn : job.progress = .next instr) : p.guard i = job.granted? := by
  obtain ⟨call, hcall, rfl⟩ := job?_eq_some.mp hj
  simp [hc.guard, granted?, hcall, hs.locked.not_dropped hcall hn]

theorem index_of_held (hc : s.Coupled h p) (hs : s.Sound) (hj : s.job? i = some job)
    (hn : job.progress = .next instr) {t : TableRef} (mode : Mode)
    (hh : (.table t, mode) ∈ job.held) (hd : job.indexDebt? ≠ some t) :
    p.index t = s.store.indexOf t :=
  hc.index_of_holds hs hj (hs.holds_of_next hj hn hh) hd

theorem roster_of_held (hc : s.Coupled h p) (hs : s.Sound) (hj : s.job? i = some job)
    (hn : job.progress = .next instr) {r : RegistryRef} (mode : Mode)
    (hh : (.registry r, mode) ∈ job.held) (hd : job.rosterDebt? ≠ some r) :
    p.roster r = s.store.rosterOf r :=
  hc.roster_of_holds hs hj (hs.holds_of_next hj hn hh) hd

/-- The rule for a step that sets nothing up. -/
theorem carries_of_kept (hc : s.Coupled h p) (hframe : Instr.SameFrame s.store store)
    (hd : ∀ t, p'.nextId t = store.nextIdOf t)
    (hp : p'.limits = p.limits ∧ p'.sessions = p.sessions ∧ p'.content = p.content ∧
      p'.born = p.born)
    (hothers : ∀ j, j ≠ i → p'.guard j = p.guard j ∧ p'.answer j = p.answer j)
    (hguard : p'.guard i = next.granted?) (hanswer : p'.answer i = next.answer? store)
    (hu : next.unborn? = job.unborn?)
    (hi : ∀ t, p'.index t = p.index t ∨ (.table t, .exclusive) ∈ job.held)
    (hr : ∀ r, p'.roster r = p.roster r ∨ (.registry r, .exclusive) ∈ job.held)
    (hindex : ∀ t, (.table t, .exclusive) ∈ job.held → next.indexDebt? ≠ some t →
      p'.index t = store.indexOf t)
    (hroster : ∀ r, (.registry r, .exclusive) ∈ job.held → next.rosterDebt? ≠ some r →
      p'.roster r = store.rosterOf r)
    (howes : next.Owes p' store) : Carries k i s.store store job next p p' := by
  obtain ⟨hlimits, hsessions, hcontent, hborn⟩ := hp
  exact
    { tables := hframe.limits
      limits := hlimits
      sessions := by rw [hsessions, hc.sessions, hframe.sessions]
      nextId := hd
      guards := fun j hj ↦ (hothers j hj).1
      answers := fun j hj ↦ (hothers j hj).2
      guard := hguard
      answer := hanswer
      index_kept := hi
      roster_kept := hr
      content_kept := fun b ↦ .inl (by rw [hcontent])
      index := hindex
      roster := hroster
      content := fun b hb hn ↦ absurd (hu.trans hb) hn
      born := fun b hb ↦ .inl (hborn ▸ hb)
      born_kept := fun b hb ↦ hborn ▸ hb
      settled := fun b hb ↦ .inr (hu.trans hb)
      unborn := fun b hb ↦ .inl (hu ▸ hb)
      fresh := fun b hb hb' ↦ absurd (Store.has_content.mpr
        (hframe.storages ▸ Store.has_content.mp hb')) hb
      owes := howes
      supplied := fun h ↦ .inl (hu ▸ h) }

/-- A step that changes nothing that can be in debt, and at which the call may be given its
answer. -/
private theorem carries_of_still (hc : s.Coupled h p) (hr : Reachable limits s)
    (hj : s.job? i = some job) (hn : job.progress = .next instr)
    (hrun : instr.run supply i s.store = some (next, store)) (hstill : instr.isStill = true)
    (hq : job.Continues p s.store next)
    (hp : p' = p ∧ next.answer? s.store = job.answer? s.store ∧ next.granted? = job.granted? ∨
      ∃ o, p' = p.answered i o ∧ next.answer? s.store = some o ∧ next.granted? = o.guard?) :
    Carries k i s.store store job next p p' := by
  have hs := hr.sound
  have hchanges := Instr.changes_of_run hrun
  obtain ⟨hi, hd, hro, hco⟩ := Instr.kept_of_isStill hstill
  have hindex (t : TableRef) : store.indexOf t = s.store.indexOf t := by rw [hchanges.index, hi]
  have hroster (r : RegistryRef) : store.rosterOf r = s.store.rosterOf r := by
    rw [hchanges.roster, hro]
  have hanswer : next.answer? store = next.answer? s.store := Job.answer?_congr fun t _ ↦ hindex t
  have hsame : p'.limits = p.limits ∧ p'.sessions = p.sessions ∧ p'.content = p.content ∧
      p'.born = p.born := by
    obtain ⟨rfl, -⟩ | ⟨o, rfl, -⟩ := hp <;> exact ⟨rfl, rfl, rfl, rfl⟩
  have hcells : p'.index = p.index ∧ p'.roster = p.roster ∧ p'.nextId = p.nextId := by
    obtain ⟨rfl, -⟩ | ⟨o, rfl, -⟩ := hp <;> exact ⟨rfl, rfl, rfl⟩
  have hnumber (t : TableRef) : p'.nextId t = store.nextIdOf t := by
    rw [hcells.2.2, hc.nextId, hchanges.nextId, hd]
  refine hc.carries_of_kept (Instr.sameFrame_of_run hrun (Instr.makes_of_isStill hstill)) hnumber
    hsame (fun j hji ↦ ?_) ?_ ?_ hq.unborn (fun t ↦ .inl (by rw [hcells.1]))
    (fun r ↦ .inl (by rw [hcells.2.1])) (fun t hh hnot ↦ ?_) (fun r hh hnot ↦ ?_) ?_
  · obtain ⟨rfl, -⟩ | ⟨o, rfl, -⟩ := hp
    · exact ⟨rfl, rfl⟩
    · exact ⟨Function.update_of_ne hji _ _, Function.update_of_ne hji _ _⟩
  · obtain ⟨rfl, -, hg⟩ | ⟨o, rfl, -, hg⟩ := hp
    · rw [hc.guard_eq hs hj hn, hg]
    · rw [hg]
      exact Function.update_self _ _ _
  · obtain ⟨rfl, ha, -⟩ | ⟨o, rfl, ha, -⟩ := hp
    · rw [hc.answer_eq hj, hanswer, ha]
    · rw [hanswer, ha]
      exact Function.update_self _ _ _
  · rw [hcells.1, hindex]
    exact hc.index_of_holds hs hj (hs.holds_of_next hj hn hh) (hq.indexDebt ▸ hnot)
  · rw [hcells.2.1, hroster]
    exact hc.roster_of_holds hs hj (hs.holds_of_next hj hn hh) (hq.rosterDebt ▸ hnot)
  · refine hq.owes.congr hsame.1 (fun t _ ↦ ⟨by rw [hcells.1], hindex t⟩)
      (fun r _ ↦ ⟨by rw [hcells.2.1], hroster r⟩) (fun b hb ↦ ?_) fun b hb ↦ ?_
    · obtain ⟨call, hcall, rfl⟩ := job?_eq_some.mp hj
      have ho := Job.owned?_of_unborn? (hq.unborn ▸ hb)
      rw [hchanges.content b (Store.has_of_unreleased (hs.owned hcall ho).1), hco]
    · exact ⟨hchanges.has _ hb.1, by rw [hchanges.content b hb.1, hco]; exact hb.2⟩

/-- A step at which nothing takes effect. -/
private theorem silent (hc : s.Coupled h p) (hr : Reachable limits s) (hj : s.job? i = some job)
    (hn : job.progress = .next instr) (hrun : instr.run supply i s.store = some (next, store))
    (hstill : instr.isStill = true) (hq : job.Continues p s.store next)
    (ha : next.answer? s.store = job.answer? s.store) (hg : next.granted? = job.granted?) :
    Goes k i s.store store job next p :=
  ⟨p, .rest, hc.carries_of_still hr hj hn hrun hstill hq (.inl ⟨rfl, ha, hg⟩)⟩

/-- A step at which nothing takes effect wherever it goes on. -/
private theorem quiet (hc : s.Coupled h p) (hr : Reachable limits s) (hj : s.job? i = some job)
    (hn : job.progress = .next instr) (hrun : instr.run supply i s.store = some (next, store))
    (hstill : instr.isStill = true) (hq : instr.Always fun next ↦ job.Continues p s.store next ∧
      next.answer? s.store = job.answer? s.store ∧ next.granted? = job.granted?) :
    Goes k i s.store store job next p := by
  obtain ⟨hq, ha, hg⟩ := hq.of_run hrun
  exact hc.silent hr hj hn hrun hstill hq ha hg

/-- What a job for something that takes effect at once names exists. -/
private theorem names (hc : s.Coupled h p) (hr : Reachable limits s) (hj : s.job? i = some job)
    (hn : job.progress = .next instr) (hnot : ∀ a phase, job ≠ .attaching a phase) :
    p.Names job.request := by
  have hatomic := hc.atomic i job _ hj hn
  have hscoped : job.Scoped s.store := by
    obtain ⟨call, hcall, rfl⟩ := job?_eq_some.mp hj
    exact hr.scoped.jobs hcall
  cases job with
  | attaching a phase => exact absurd rfl (hnot a phase)
  | accessing a phase => cases hatomic
  | allocating a phase | freeing f phase =>
    exact ⟨hc.has_table.mp hscoped.1, hc.has_registry.mp hscoped.2⟩
  | tearingDown d phase => exact ⟨hc.has_table.mp hscoped.1, hc.has_registry.mp hscoped.2.1⟩
  | lookingUp l phase | inspecting l phase | drawing l phase => exact hc.has_table.mp hscoped
  | editing c phase => exact hc.has_registry.mp hscoped

/-- A step at which a call takes effect. -/
private theorem takes (hc : s.Coupled h p) (hj : s.job? i = some job)
    (ha : job.answer? s.store = none) (hnames : p.Names job.request)
    (hpermits : p.Permits job.request) {σ : Supply} (hσ : k.Offers i σ) {b : StorageRef}
    (hb : b ∉ p.born) {o : Outcome} {q : Ideal} (heffect : p.effect σ b job.request = (o, q))
    (hcarry : Carries k i s.store store job next p (q.answered i o)) :
    Goes k i s.store store job next p := by
  have hatomic : job.request.isAtomic = true := by
    cases hn : job.progress with
    | ended o => cases ha.symm.trans (Job.answer?_of_outcome? (Job.outcome?_eq_some.mpr hn))
    | next instr => exact hc.atomic i job instr hj hn
  refine ⟨_, .effect hσ ⟨(hc.answer_eq hj).trans ha, hatomic, hnames, hpermits, hb⟩, ?_⟩
  rw [Ideal.after, heffect]
  exact hcarry

/-- The rule for a step that sets nothing up, at which a call takes effect. -/
private theorem carries_of_effect (hc : s.Coupled h p)
    (hframe : Instr.SameFrame s.store store) {o : Outcome} {q : Ideal}
    (hguard : next.granted? = o.guard?)
    (hanswer : next.answer? store = some o) (hu : next.unborn? = job.unborn?)
    (hd : ∀ t, q.nextId t = store.nextIdOf t)
    (hp : q.limits = p.limits ∧ q.sessions = p.sessions ∧ q.content = p.content ∧ q.born = p.born)
    (hothers : q.guard = p.guard ∧ q.answer = p.answer)
    (hi : ∀ t, q.index t = p.index t ∨ (.table t, .exclusive) ∈ job.held)
    (hr : ∀ r, q.roster r = p.roster r ∨ (.registry r, .exclusive) ∈ job.held)
    (hindex : ∀ t, (.table t, .exclusive) ∈ job.held → next.indexDebt? ≠ some t →
      q.index t = store.indexOf t)
    (hroster : ∀ r, (.registry r, .exclusive) ∈ job.held → next.rosterDebt? ≠ some r →
      q.roster r = store.rosterOf r)
    (howes : next.Owes (q.answered i o) store) :
    Carries k i s.store store job next p (q.answered i o) := by
  refine hc.carries_of_kept hframe hd hp (fun j hji ↦ ⟨?_, ?_⟩) ?_ ?_ hu hi hr hindex hroster howes
  · exact (Function.update_of_ne hji _ _).trans (congrFun hothers.1 j)
  · exact (Function.update_of_ne hji _ _).trans (congrFun hothers.2 j)
  · exact (Function.update_self _ _ _).trans hguard.symm
  · exact (Function.update_self _ _ _).trans hanswer.symm

/-- A step at which a call gets its answer without any change of the state. -/
private theorem answers (hc : s.Coupled h p) (hr : Reachable limits s) (hj : s.job? i = some job)
    (hn : job.progress = .next instr) (hrun : instr.run supply i s.store = some (next, store))
    (hstill : instr.isStill = true) (hq : job.Continues p s.store next)
    (ha : job.answer? s.store = none) (hnames : p.Names job.request)
    (hpermits : p.Permits job.request) {o : Outcome}
    (heffect : p.effect supply s.store.storages.size job.request = (o, p))
    (ho : next.answer? s.store = some o) (hg : next.granted? = o.guard?) :
    Goes (h ++ [(supply, .step i)]) i s.store store job next p :=
  hc.takes hj ha hnames hpermits (.last ..) hc.not_born heffect
    (hc.carries_of_still hr hj hn hrun hstill hq (.inr ⟨o, rfl, ho, hg⟩))

/-- The rule for a step that sets nothing up and at which nothing takes effect. -/
private theorem pays (hc : s.Coupled h p) (hs : s.Sound) (hj : s.job? i = some job)
    (hn : job.progress = .next instr) (hrun : instr.run supply i s.store = some (next, store))
    (hm : instr.makes = false) (hd : ∀ t id, instr.onNextId t id = id)
    (hguard : next.granted? = job.granted?) (hanswer : next.answer? store = job.answer? s.store)
    (hu : next.unborn? = job.unborn?)
    (hindex : ∀ t, (.table t, .exclusive) ∈ job.held → next.indexDebt? ≠ some t →
      p.index t = store.indexOf t)
    (hroster : ∀ r, (.registry r, .exclusive) ∈ job.held → next.rosterDebt? ≠ some r →
      p.roster r = store.rosterOf r)
    (howes : next.Owes p store) : Goes k i s.store store job next p :=
  ⟨p, .rest, hc.carries_of_kept (Instr.sameFrame_of_run hrun hm)
    (fun t ↦ by rw [(Instr.changes_of_run hrun).nextId, hd, hc.nextId]) ⟨rfl, rfl, rfl, rfl⟩
    (fun _ _ ↦ ⟨rfl, rfl⟩) ((hc.guard_eq hs hj hn).trans hguard.symm)
    ((hc.answer_eq hj).trans hanswer.symm) hu (fun _ ↦ .inl rfl) (fun _ ↦ .inl rfl) hindex hroster
    howes⟩

/-- The rule for a step of a call that has one table and one registry locked alone, at which nothing
takes effect. -/
private theorem settles (hc : s.Coupled h p) (hs : s.Sound) (hj : s.job? i = some job)
    (hn : job.progress = .next instr) (hrun : instr.run supply i s.store = some (next, store))
    (hm : instr.makes = false) (hd : ∀ t id, instr.onNextId t id = id)
    (hguard : next.granted? = job.granted?) (hanswer : next.answer? store = job.answer? s.store)
    (hu : next.unborn? = job.unborn?) {t : TableRef} {r : RegistryRef}
    (ht : ∀ u, (.table u, .exclusive) ∈ job.held ↔ u = t)
    (hr : ∀ q, (.registry q, .exclusive) ∈ job.held ↔ q = r)
    (hindex : next.indexDebt? ≠ some t → p.index t = store.indexOf t)
    (hroster : next.rosterDebt? ≠ some r → p.roster r = store.rosterOf r)
    (howes : next.Owes p store) : Goes k i s.store store job next p := by
  refine hc.pays hs hj hn hrun hm hd hguard hanswer hu (fun u hh hnot ↦ ?_) (fun q hh hnot ↦ ?_)
    howes
  · obtain rfl := (ht u).mp hh
    exact hindex hnot
  · obtain rfl := (hr q).mp hh
    exact hroster hnot

/-- The rule for a step at which a call takes effect on the one table and the one registry that it
has locked alone. -/
private theorem carries_of_both (hc : s.Coupled h p) (job : Job)
    (hrun : instr.run supply i s.store = some (next, store)) (hm : instr.makes = false)
    (hd : ∀ t id, instr.onNextId t id = id) {o : Outcome} (hguard : next.granted? = o.guard?)
    (hanswer : next.answer? store = some o) (hu : next.unborn? = job.unborn?) {t : TableRef}
    {r : RegistryRef} {index : Index} {roster : Roster}
    (ht : ∀ u, (.table u, .exclusive) ∈ job.held ↔ u = t)
    (hr : ∀ q, (.registry q, .exclusive) ∈ job.held ↔ q = r)
    (hindex : next.indexDebt? ≠ some t → index = store.indexOf t)
    (hroster : next.rosterDebt? ≠ some r → roster = store.rosterOf r)
    (howes : next.Owes (Ideal.answered { p with
      index := Function.update p.index t index
      roster := Function.update p.roster r roster } i o) store) :
    Carries k i s.store store job next p (Ideal.answered { p with
      index := Function.update p.index t index
      roster := Function.update p.roster r roster } i o) := by
  refine hc.carries_of_effect (Instr.sameFrame_of_run hrun hm) hguard hanswer hu (fun u ↦ ?_)
    ⟨rfl, rfl, rfl, rfl⟩ ⟨rfl, rfl⟩ (fun u ↦ ?_) (fun q ↦ ?_) (fun u hh hnot ↦ ?_)
    (fun q hh hnot ↦ ?_) howes
  · rw [(Instr.changes_of_run hrun).nextId, hd]
    exact hc.nextId u
  · by_cases hut : u = t
    · exact .inr ((ht u).mpr hut)
    · exact .inl (Function.update_of_ne hut _ _)
  · by_cases hqr : q = r
    · exact .inr ((hr q).mpr hqr)
    · exact .inl (Function.update_of_ne hqr _ _)
  · obtain rfl := (ht u).mp hh
    exact (Function.update_self _ _ _).trans (hindex hnot)
  · obtain rfl := (hr q).mp hh
    exact (Function.update_self _ _ _).trans (hroster hnot)

/-- Nobody has a guard on content that a call holds alone, but for the call itself. -/
private theorem admits_of_held (hc : s.Coupled h p) (hs : s.Sound) (hj : s.job? i = some job)
    (hn : job.progress = .next instr) (hg : job.granted? = none) {b : StorageRef}
    (hh : (.content b, .exclusive) ∈ job.held) (mode : Mode) : p.Admits b mode := by
  rintro j g hgj rfl
  rw [hc.guard] at hgj
  obtain ⟨rfl, -⟩ := hs.locked.unique (hs.holds_of_next hj hn hh) (holds_of_granted? hgj)
  rw [← hc.guard, hc.guard_eq hs hj hn, hg] at hgj
  cases hgj

/-- A number is drawn of the ideal state as of the store. -/
private theorem nextId_of_draw (hc : s.Coupled h p) {t : TableRef} {f : BufferId → Job}
    (hrun : (Instr.draw t f).run supply i s.store = some (next, store)) (u : TableRef) :
    Function.update p.nextId t ⟨(p.nextId t).number + 1⟩ u = store.nextIdOf u := by
  rw [(Instr.changes_of_run hrun).nextId, ← hc.nextId, Instr.onNextId]
  by_cases hu : u = t
  · subst hu
    simp
  · simp [hu, Ne.symm hu]

/-! ### One operation after the other -/

/-- A lookup takes effect when it does not find its key, or when it is given the content. -/
private theorem lookup (hc : s.Coupled h p) (hr : Reachable limits s) {l : Lookup}
    {phase : Lookup.Phase} {step : Instr Lookup.Phase}
    (hj : s.job? i = some (.lookingUp l phase)) (hp : l.progress phase = .next step)
    (hrun : (step.map (.lookingUp l)).run supply i s.store = some (next, store)) :
    Goes (h ++ [(supply, .step i)]) i s.store store (.lookingUp l phase) next p := by
  have hs := hr.sound
  cases phase with
  | find =>
    cases hp
    have hindex : p.index l.table = s.store.indexOf l.table :=
      hc.index_of_held hs hj rfl _ (List.mem_singleton_self _) (by simp [Job.indexDebt?])
    obtain ⟨-, hx, -⟩ := Instr.run_readIndex.mp hrun
    dsimp only [Function.comp] at hx
    split at hx
    · subst hx
      exact hc.silent hr hj rfl hrun rfl ⟨rfl, rfl, rfl, trivial⟩ rfl rfl
    · next hnone =>
      subst hx
      refine hc.answers hr hj rfl hrun rfl ⟨rfl, rfl, rfl, trivial⟩ rfl
        (hc.names hr hj rfl (by simp))
        (fun b hb ↦ ?_) (o := .refused (.notFound l.key)) ?_ rfl rfl
      · rw [hindex, hnone] at hb
        cases hb
      · simp [Job.request, Ideal.effect, Ideal.lookup, hindex, hnone]
  | lockContent b =>
    cases hp
    have hindex : p.index l.table = s.store.indexOf l.table :=
      hc.index_of_held hs hj rfl _ (List.mem_singleton_self _) (by simp [Job.indexDebt?])
    have hfound : (p.index l.table)[l.key]? = some b := by
      rw [hindex]
      exact hs.knows_job? hj
    obtain ⟨-, m, hlock, rfl, -⟩ := Instr.run_acquire.mp hrun
    refine hc.answers hr hj rfl hrun rfl ⟨rfl, rfl, rfl, trivial⟩ rfl (hc.names hr hj rfl (by simp))
      (fun c hb j g hg hgb ↦ ?_) (o := .guard ⟨⟨l.key, b⟩, l.mode⟩) ?_ rfl rfl
    · -- Whoever has a guard on the content holds its lock, which has room for one more.
      rw [hfound] at hb
      cases hb
      rw [hc.guard] at hg
      have hheld := (hs.locked.holds_iff _ _ _).mpr (holds_of_granted? hg)
      rw [hgb] at hheld
      exact Lock.shared_of_acquire? hlock hheld
    · simp [Job.request, Ideal.effect, Ideal.lookup, hfound]
  | ended o => cases hp
  | _ =>
    cases hp
    exact hc.quiet hr hj rfl hrun rfl ⟨⟨rfl, rfl, rfl, trivial⟩, rfl, rfl⟩

/-- A question takes effect when it is answered. -/
private theorem inspection (hc : s.Coupled h p) (hr : Reachable limits s) {q : Inspection}
    {phase : Inspection.Phase} {step : Instr Inspection.Phase}
    (hj : s.job? i = some (.inspecting q phase)) (hp : q.progress phase = .next step)
    (hrun : (step.map (.inspecting q)).run supply i s.store = some (next, store)) :
    Goes (h ++ [(supply, .step i)]) i s.store store (.inspecting q phase) next p := by
  have hs := hr.sound
  cases phase with
  | read =>
    cases hp
    have hindex : p.index q.table = s.store.indexOf q.table :=
      hc.index_of_held hs hj rfl _ (List.mem_singleton_self _) (by simp [Job.indexDebt?])
    obtain ⟨-, rfl, -⟩ := Instr.run_readIndex.mp hrun
    refine hc.answers hr hj rfl hrun rfl ⟨rfl, rfl, rfl, trivial⟩ rfl (hc.names hr hj rfl (by simp))
      trivial ?_ rfl ?_
    · simp [Job.request, Ideal.effect, hindex]
    · exact (Question.guard?_answer _ _).symm
  | ended o => cases hp
  | _ =>
    cases hp
    exact hc.quiet hr hj rfl hrun rfl ⟨⟨rfl, rfl, rfl, trivial⟩, rfl, rfl⟩

/-- A drawing takes effect when it draws. -/
private theorem drawing (hc : s.Coupled h p) (hr : Reachable limits s) {d : Drawing}
    {phase : Drawing.Phase} {step : Instr Drawing.Phase}
    (hj : s.job? i = some (.drawing d phase)) (hp : d.progress phase = .next step)
    (hrun : (step.map (.drawing d)).run supply i s.store = some (next, store)) :
    Goes (h ++ [(supply, .step i)]) i s.store store (.drawing d phase) next p := by
  cases phase with
  | ended o => cases hp
  | draw =>
    cases hp
    have hnumber := hc.nextId_of_draw hrun
    obtain ⟨-, rfl, -⟩ := Instr.run_draw.mp hrun
    refine hc.takes hj rfl (hc.names hr hj rfl (by simp)) trivial (.last ..) hc.not_born
      (q := { p with nextId := Function.update p.nextId d.table ⟨(p.nextId d.table).number + 1⟩ })
      rfl (hc.carries_of_effect (Instr.sameFrame_of_run hrun rfl) rfl ?_ rfl hnumber
        ⟨rfl, rfl, rfl, rfl⟩ ⟨rfl, rfl⟩ (fun t ↦ .inl rfl) (fun r ↦ .inl rfl) (fun t hh ↦ ?_)
        (fun r hh ↦ ?_) trivial)
    · rw [hc.nextId]
      rfl
    · cases hh
    · cases hh

private theorem onRoster_act {c : RosterCall}
    (h : ∀ key, c.action = .add key → key.session = c.session) (r : RegistryRef) (roster : Roster) :
    c.act.onRoster r roster =
      if c.registry = r then c.action.effect c.session roster else roster := by
  unfold RosterCall.act
  split
  · next key hk => simp [Instr.onRoster, hk, RosterAction.effect, h key hk]
  all_goals
    next hk => simp [Instr.onRoster, hk, RosterAction.effect]

/-- A direct use of a registry goes on with what it is to be answered. -/
private theorem next_of_act {c : RosterCall} {phase : RosterCall.Phase} {u u' : Store}
    (h : ∀ key, c.action = .add key → key.session = c.session)
    (hrun : c.act.run supply i u = some (phase, u')) :
    phase = .unlock (c.action.answer c.session (u.rosterOf c.registry)) := by
  unfold RosterCall.act at hrun
  split at hrun
  · next key hk =>
    obtain ⟨-, rfl, -⟩ := Instr.run_add.mp hrun
    simp [hk, RosterAction.answer, h key hk]
  · next key hk =>
    obtain ⟨-, rfl, -⟩ := Instr.run_remove.mp hrun
    simp [hk, RosterAction.answer]
  · next key hk =>
    obtain ⟨-, rfl, -⟩ := Instr.run_readRoster.mp hrun
    simp [hk, RosterAction.answer]
  · next key hk =>
    obtain ⟨-, rfl, -⟩ := Instr.run_readRoster.mp hrun
    simp [hk, RosterAction.answer]
  · next hk =>
    obtain ⟨-, rfl, -⟩ := Instr.run_drain.mp hrun
    simp [hk, RosterAction.answer]
  · next hk =>
    obtain ⟨-, rfl, -⟩ := Instr.run_readRoster.mp hrun
    simp [hk, RosterAction.answer]
  · next hk =>
    obtain ⟨-, rfl, -⟩ := Instr.run_readRoster.mp hrun
    simp [hk, RosterAction.answer]

/-- A direct use of a registry takes effect when it reads or changes the roster. -/
private theorem rosterCall (hc : s.Coupled h p) (hr : Reachable limits s) {c : RosterCall}
    {phase : RosterCall.Phase} {step : Instr RosterCall.Phase}
    (hj : s.job? i = some (.editing c phase)) (hp : c.progress phase = .next step)
    (hrun : (step.map (.editing c)).run supply i s.store = some (next, store)) :
    Goes (h ++ [(supply, .step i)]) i s.store store (.editing c phase) next p := by
  have hs := hr.sound
  have howes := hc.owes i _ hj
  cases phase with
  | lock =>
    cases hp
    exact hc.quiet hr hj rfl hrun rfl ⟨⟨rfl, rfl, rfl, howes⟩, rfl, rfl⟩
  | tryLock => exact howes.elim
  | act =>
    cases hp
    have hroster : p.roster c.registry = s.store.rosterOf c.registry :=
      hc.roster_of_held hs hj rfl _ (List.mem_singleton_self _) (by simp [Job.rosterDebt?])
    have hsession : p.sessionOf c.registry = c.session :=
      (hc.sessionOf _).trans (hc.named i _ _ hj rfl).symm
    have hchanges := Instr.changes_of_run hrun
    obtain ⟨x, hx, rfl⟩ := Instr.run_map_eq_some.mp hrun
    obtain rfl := next_of_act howes hx
    have hmakes : (c.act.map (Job.editing c)).makes = false := by
      unfold RosterCall.act
      split <;> rfl
    have hnumber (t : TableRef) (id : BufferId) :
        (c.act.map (Job.editing c)).onNextId t id = id := by
      unfold RosterCall.act
      split <;> rfl
    have hon (roster : Roster) : (c.act.map (Job.editing c)).onRoster c.registry roster =
        c.action.effect c.session roster := by
      have hmap : (c.act.map (Job.editing c)).onRoster c.registry roster =
          c.act.onRoster c.registry roster := by cases c.act <;> rfl
      rw [hmap, onRoster_act howes, if_pos rfl]
    refine hc.takes hj rfl (hc.names hr hj rfl (by simp)) trivial (.last ..) hc.not_born
      (o := c.action.answer c.session (p.roster c.registry))
      (q := { p with
        roster := Function.update p.roster c.registry
          (c.action.effect c.session (p.roster c.registry)) }) ?_
      (hc.carries_of_effect (Instr.sameFrame_of_run hrun hmakes) ?_ ?_ rfl (fun t ↦ ?_)
        ⟨rfl, rfl, rfl, rfl⟩ ⟨rfl, rfl⟩ (fun t ↦ .inl rfl) (fun r ↦ ?_) (fun t hh ↦ ?_)
        (fun r hh _ ↦ ?_) trivial)
    · simp [Job.request, Ideal.effect, hsession]
    · exact (RosterAction.guard?_answer _ _ _).symm
    · rw [hroster]
      rfl
    · rw [hchanges.nextId, ← hc.nextId, hnumber]
    · by_cases hrc : r = c.registry
      · exact .inr (hrc ▸ List.mem_singleton_self _)
      · exact .inl (Function.update_of_ne hrc _ _)
    · simp [Job.held, RosterCall.held] at hh
    · obtain rfl : r = c.registry := by simpa [Job.held, RosterCall.held] using hh
      rw [hchanges.roster, hon, ← hroster]
      exact Function.update_self _ _ _
  | unlock o =>
    cases hp
    exact hc.quiet hr hj rfl hrun rfl ⟨⟨rfl, rfl, rfl, trivial⟩, rfl, rfl⟩
  | ended o => cases hp

/-- The rule for the step at which an attachment gets its answer. -/
private theorem carries_of_attaching (hc : s.Coupled h p) {a : Attachment}
    {phase phase' : Attachment.Phase} {o : Outcome} {sessions : Array SessionId}
    (ht : store.tables = s.store.tables) (hb : store.storages = s.store.storages)
    (hsessions : sessions = store.registries.map Registry.session)
    (hanswer : ∀ u, Job.answer? u (.attaching a phase') = some o) (hguard : o.guard? = none)
    (howes : ∀ q u, Job.Owes q u (.attaching a phase')) :
    Carries k i s.store store (.attaching a phase) (.attaching a phase') p
      ({ p with sessions }.answered i o) where
  tables := by rw [ht]
  limits := rfl
  sessions := hsessions
  nextId t := by rw [Store.nextIdOf, ht]; exact hc.nextId t
  guards j hji := Function.update_of_ne hji _ _
  answers j hji := Function.update_of_ne hji _ _
  guard := (Function.update_self _ _ _).trans hguard
  answer := (Function.update_self _ _ _).trans (hanswer _).symm
  index_kept _ := .inl rfl
  roster_kept _ := .inl rfl
  content_kept _ := .inl rfl
  index t hh := by simp [Job.held] at hh
  roster r hh := by simp [Job.held] at hh
  content b hu := by simp [Job.unborn?] at hu
  born b hb := .inl hb
  born_kept b hb := hb
  settled b hu := by simp [Job.unborn?] at hu
  unborn b hu := by simp [Job.unborn?] at hu
  fresh b hnot hb' := absurd (Store.has_content.mpr (hb ▸ Store.has_content.mp hb')) hnot
  owes := howes _ _
  supplied hu := by simp [Job.unborn?] at hu

/-- A registry is reserved, or refused, at once. -/
private theorem enrolment (hc : s.Coupled h p) {a : Attachment} {phase : Attachment.Phase}
    {capacity : UInt64} {given : RegistryRef → Attachment.Phase}
    (hj : s.job? i = some (.attaching a phase)) (hcap : capacity = p.capacityFor a.purpose)
    (hnames : p.Names (.attach a)) (ha : Job.answer? s.store (.attaching a phase) = none)
    (hgiven : ∀ r, (∀ u, Job.answer? u (.attaching a (given r)) = some (.registry r)) ∧
      ∀ q u, Job.Owes q u (.attaching a (given r)))
    (hrun : ((a.enroll capacity given).map (Job.attaching a)).run supply i s.store =
      some (next, store)) :
    Goes (h ++ [(supply, .step i)]) i s.store store (.attaching a phase) next p := by
  obtain ⟨hsupply, rfl, rfl⟩ | ⟨hsupply, rfl, rfl⟩ := Instr.run_enroll.mp hrun
  · have hsize : p.sessions.size = s.store.registries.size := by rw [hc.sessions, Array.size_map]
    refine hc.takes hj ha hnames trivial (.last ..) hc.not_born
      (o := .registry s.store.registries.size)
      (q := { p with sessions := p.sessions.push a.session }) ?_
      (hc.carries_of_attaching rfl rfl (by simp [hc.sessions]) (hgiven _).1 rfl (hgiven _).2)
    simp [Job.request, Ideal.effect, ← hcap, hsupply, hsize]
  · refine hc.takes hj ha hnames trivial (.last ..) hc.not_born
      (o := .refused (Supply.rosterFailure capacity)) (q := p) ?_
      (hc.carries_of_attaching rfl rfl hc.sessions (fun _ ↦ rfl) rfl fun _ _ ↦ trivial)
    simp [Job.request, Ideal.effect, ← hcap, hsupply]

/-- An attachment takes effect when its registry is reserved or refused. -/
private theorem attachment (hc : s.Coupled h p) (hr : Reachable limits s) {a : Attachment}
    {phase : Attachment.Phase} {step : Instr Attachment.Phase}
    (hj : s.job? i = some (.attaching a phase)) (hp : a.progress phase = .next step)
    (hrun : (step.map (.attaching a)).run supply i s.store = some (next, store)) :
    Goes (h ++ [(supply, .step i)]) i s.store store (.attaching a phase) next p := by
  have howes := hc.owes i _ hj
  have hatomic := hc.atomic i _ _ hj (Progress.map_eq_next.mpr ⟨step, hp, rfl⟩)
  have hscoped : Job.Scoped s.store (.attaching a phase) := by
    obtain ⟨call, hcall, hjob⟩ := job?_eq_some.mp hj
    exact hjob ▸ hr.scoped.jobs hcall
  obtain ⟨session, purpose⟩ := a
  cases purpose with
  | session t => cases hatomic
  | alone capacity =>
    cases phase with
    | start =>
      cases hp
      refine hc.enrolment hj rfl trivial rfl ?_ hrun
      exact fun r ↦ ⟨fun _ ↦ rfl, fun _ _ ↦ trivial⟩
    | enroll t capacity =>
      cases hp
      refine hc.enrolment hj howes.1 howes.2 rfl ?_ hrun
      exact fun r ↦ ⟨fun _ ↦ rfl, fun _ _ ↦ trivial⟩
    | «open» t r => exact howes.elim
    | ended o => cases hp
    | _ =>
      cases hp
      exact hc.quiet hr hj rfl hrun rfl ⟨⟨rfl, rfl, rfl, trivial⟩, rfl, rfl⟩
  | table t =>
    cases phase with
    | start =>
      cases hp
      obtain ⟨-, rfl, -⟩ := Instr.run_consult.mp hrun
      exact hc.silent hr hj rfl hrun rfl
        ⟨rfl, rfl, rfl, congrArg _ (hc.limitsOf t).symm, hc.has_table.mp hscoped⟩ rfl rfl
    | enroll t capacity =>
      cases hp
      refine hc.enrolment hj howes.1 howes.2 rfl ?_ hrun
      exact fun r ↦ ⟨fun _ ↦ rfl, fun _ _ ↦ trivial⟩
    | «open» t r => exact howes.elim
    | ended o => cases hp
    | _ =>
      cases hp
      exact hc.quiet hr hj rfl hrun rfl ⟨⟨rfl, rfl, rfl, trivial⟩, rfl, rfl⟩

section Removal

variable {f : Removal} {phase : Removal.Phase} {step : Instr Removal.Phase}

/-- The key of a free is the one that its request names. -/
private theorem key_of_freeing (hc : s.Coupled h p) (hj : s.job? i = some (.freeing f phase))
    (hn : (Job.freeing f phase).progress = .next instr) :
    (⟨p.sessionOf f.registry, f.key.buffer⟩ : Key) = f.key := by
  rw [hc.sessionOf, ← show f.key.session = _ from hc.named i _ _ hj hn]

/-- A free takes effect when it finds that there is nothing to free. -/
private theorem misses (hc : s.Coupled h p) (hr : Reachable limits s) {inTable : Bool}
    (hj : s.job? i = some (.freeing f phase)) (hp : f.progress phase = .next step)
    (hrun : (step.map (Job.freeing f)).run supply i s.store =
      some (Job.freeing f (.missRegistry inTable), store))
    (hstill : (step.map (Job.freeing f)).isStill = true)
    (hq : Job.Continues p s.store (.freeing f phase) (.freeing f (.missRegistry inTable)))
    (ha : Job.answer? s.store (.freeing f phase) = none)
    (hnot : (p.index f.table).contains f.key = false ∨
      (p.roster f.registry).contains f.key = false) :
    Goes (h ++ [(supply, .step i)]) i s.store store (.freeing f phase)
      (.freeing f (.missRegistry inTable)) p := by
  have hn : (Job.freeing f phase).progress = .next _ := Progress.map_eq_next.mpr ⟨step, hp, rfl⟩
  have hkey := hc.key_of_freeing hj hn
  refine hc.answers hr hj hn hrun hstill hq ha (hc.names hr hj hn (by simp))
    (fun hlisted b hb ↦ ?_) (o := .refused (.notFound f.key)) ?_ rfl rfl
  · rw [hkey] at hlisted hb
    obtain hnot | hnot := hnot
    · exact absurd (Index.contains_iff.mpr ⟨b, hb⟩) (by simp [hnot])
    · exact absurd hlisted (by simp [hnot])
  · obtain hnot | hnot := hnot <;> simp [Job.request, Ideal.effect, Ideal.free, hkey, hnot]

/-- A free that takes the key out of the table takes effect there. -/
private theorem removal_erase (hc : s.Coupled h p) (hr : Reachable limits s) {b : StorageRef}
    (hj : s.job? i = some (.freeing f (.erase b))) (hp : f.progress (.erase b) = .next step)
    (hrun : (step.map (.freeing f)).run supply i s.store = some (next, store)) :
    Goes (h ++ [(supply, .step i)]) i s.store store (.freeing f (.erase b)) next p := by
  have hs := hr.sound
  have hknows := hs.knows_job? hj
  have hkey := hc.key_of_freeing hj rfl
  have hchanges := Instr.changes_of_run hrun
  cases hp
  have hindex : p.index f.table = s.store.indexOf f.table :=
    hc.index_of_held hs hj rfl .exclusive (by simp [Job.held, Removal.held])
      (by simp [Job.indexDebt?])
  have hroster : p.roster f.registry = s.store.rosterOf f.registry :=
    hc.roster_of_held hs hj rfl .exclusive (by simp [Job.held, Removal.held])
      (by simp [Job.rosterDebt?])
  have hin : (p.index f.table).contains f.key = true := by
    rw [hindex]
    exact Index.contains_iff.mpr ⟨b, hknows.1⟩
  have hlisted : (p.roster f.registry).contains f.key = true := hroster ▸ hknows.2
  obtain ⟨-, rfl, -⟩ := Instr.run_erase.mp hrun
  refine hc.takes hj rfl (hc.names hr hj rfl (by simp)) (fun _ c hcb ↦ ?_) (.last ..)
    hc.not_born (o := .done) (q := { p with
      index := Function.update p.index f.table ((p.index f.table).erase f.key)
      roster := Function.update p.roster f.registry ((p.roster f.registry).remove f.key) }) ?_
    (hc.carries_of_both (t := f.table) (r := f.registry) (.freeing f (.erase b)) hrun rfl
      (fun _ _ ↦ rfl) rfl rfl rfl (fun _ ↦ by simp [Job.held, Removal.held])
      (fun _ ↦ by simp [Job.held, Removal.held]) (fun _ ↦ ?_) (fun hnot ↦ absurd rfl hnot) ?_)
  · rw [hkey, hindex, hknows.1] at hcb
    cases hcb
    exact hc.admits_of_held hs hj rfl rfl (by simp [Job.held, Removal.held]) _
  · simp [Job.request, Ideal.effect, Ideal.free, hkey, hin, hlisted]
  · rw [hchanges.index, ← hindex]
    simp [Instr.map, Instr.onIndex]
  · simp only [Job.Owes, Ideal.answered, Function.update_self]
    rw [hroster, hchanges.roster]
    rfl

/-- A free takes effect when it takes the key out of the table, or when there is nothing to
free. -/
private theorem removal (hc : s.Coupled h p) (hr : Reachable limits s)
    (hj : s.job? i = some (.freeing f phase)) (hp : f.progress phase = .next step)
    (hrun : (step.map (.freeing f)).run supply i s.store = some (next, store)) :
    Goes (h ++ [(supply, .step i)]) i s.store store (.freeing f phase) next p := by
  have hs := hr.sound
  have howes := hc.owes i _ hj
  have hchanges := Instr.changes_of_run hrun
  cases phase with
  | find =>
    have hprogress := hp
    cases hp
    have hindex : p.index f.table = s.store.indexOf f.table :=
      hc.index_of_held hs hj rfl .exclusive (by simp [Job.held, Removal.held])
        (by simp [Job.indexDebt?])
    obtain ⟨-, hx, -⟩ := Instr.run_readIndex.mp hrun
    dsimp only [Function.comp] at hx
    split at hx
    · subst hx
      exact hc.silent hr hj rfl hrun rfl ⟨rfl, rfl, rfl, trivial⟩ rfl rfl
    · next hnone =>
      subst hx
      exact hc.misses hr hj hprogress hrun rfl ⟨rfl, rfl, rfl, trivial⟩ rfl
        (.inl (by rw [hindex]; exact Index.not_contains_iff.mpr hnone))
  | checkOwner b =>
    have hprogress := hp
    cases hp
    have hroster : p.roster f.registry = s.store.rosterOf f.registry :=
      hc.roster_of_held hs hj rfl .exclusive (by simp [Job.held, Removal.held])
        (by simp [Job.rosterDebt?])
    obtain ⟨-, hx, -⟩ := Instr.run_readRoster.mp hrun
    dsimp only [Function.comp] at hx
    split at hx
    · subst hx
      exact hc.silent hr hj rfl hrun rfl ⟨rfl, rfl, rfl, trivial⟩ rfl rfl
    · next hnot =>
      subst hx
      exact hc.misses hr hj hprogress hrun rfl ⟨rfl, rfl, rfl, trivial⟩ rfl
        (.inr (by rw [hroster]; exact Bool.eq_false_iff.mpr hnot))
  | erase b => exact hc.removal_erase hr hj hp hrun
  | forget b =>
    cases hp
    obtain ⟨-, rfl, -⟩ := Instr.run_remove.mp hrun
    have hindex : p.index f.table = s.store.indexOf f.table :=
      hc.index_of_held hs hj rfl .exclusive (by simp [Job.held, Removal.held])
        (by simp [Job.indexDebt?])
    refine hc.settles (t := f.table) (r := f.registry) hs hj rfl hrun rfl (fun _ _ ↦ rfl) rfl rfl
      rfl (fun _ ↦ by simp [Job.held, Removal.held]) (fun _ ↦ by simp [Job.held, Removal.held])
      (fun _ ↦ ?_) (fun _ ↦ ?_) trivial
    · rw [hchanges.index]
      exact hindex
    · rw [hchanges.roster, show p.roster f.registry = _ from howes]
      simp [Instr.map, Instr.onRoster]
  | dispose b =>
    cases hp
    obtain ⟨-, rfl, -⟩ := Instr.run_dispose.mp hrun
    exact hc.pays hs hj rfl hrun rfl (fun _ _ ↦ rfl) rfl rfl rfl
      (fun t hh ↦ by simp [Job.held, Removal.held] at hh)
      (fun r hh ↦ by simp [Job.held, Removal.held] at hh) trivial
  | ended o => cases hp
  | _ =>
    cases hp
    exact hc.quiet hr hj rfl hrun rfl ⟨⟨rfl, rfl, rfl, trivial⟩, rfl, rfl⟩

end Removal

/-- The rule for the step at which an allocation that has its storage takes effect, and the storage
is set up in the ideal state as well. -/
private theorem carries_of_birth (hc : s.Coupled h p) {b : StorageRef} {c : Content}
    (hframe : Instr.SameFrame s.store store) (hu : job.unborn? = some b)
    (hu' : next.unborn? = none) (hcontent : store.contentOf b = c) {o : Outcome} {q : Ideal}
    (hguard : next.granted? = o.guard?) (hanswer : next.answer? store = some o)
    (hd : ∀ t, q.nextId t = store.nextIdOf t)
    (hp : q.limits = p.limits ∧ q.sessions = p.sessions ∧
      q.content = Function.update p.content b c ∧ q.born = p.born ++ [b])
    (hothers : q.guard = p.guard ∧ q.answer = p.answer)
    (hi : ∀ t, q.index t = p.index t ∨ (.table t, .exclusive) ∈ job.held)
    (hr : ∀ r, q.roster r = p.roster r ∨ (.registry r, .exclusive) ∈ job.held)
    (hindex : ∀ t, (.table t, .exclusive) ∈ job.held → next.indexDebt? ≠ some t →
      q.index t = store.indexOf t)
    (hroster : ∀ r, (.registry r, .exclusive) ∈ job.held → next.rosterDebt? ≠ some r →
      q.roster r = store.rosterOf r)
    (howes : next.Owes (q.answered i o) store) :
    Carries k i s.store store job next p (q.answered i o) := by
  obtain ⟨hlimits, hsessions, hcontents, hborn⟩ := hp
  exact
    { tables := hframe.limits
      limits := hlimits
      sessions := by rw [hframe.sessions, ← hc.sessions]; exact hsessions
      nextId := hd
      guards := fun j hji ↦ (Function.update_of_ne hji _ _).trans (congrFun hothers.1 j)
      answers := fun j hji ↦ (Function.update_of_ne hji _ _).trans (congrFun hothers.2 j)
      guard := (Function.update_self _ _ _).trans hguard.symm
      answer := (Function.update_self _ _ _).trans hanswer.symm
      index_kept := hi
      roster_kept := hr
      content_kept := fun d ↦ by
        by_cases hdb : d = b
        · exact .inr (hdb ▸ hu)
        · exact .inl ((congrFun hcontents d).trans (Function.update_of_ne hdb _ _))
      index := hindex
      roster := hroster
      content := fun d hdu _ ↦ by
        obtain rfl : b = d := Option.some.inj (hu.symm.trans hdu)
        exact (congrFun hcontents b).trans ((Function.update_self _ _ _).trans hcontent.symm)
      born := fun d hdb ↦ by
        rw [Ideal.answered, hborn] at hdb
        obtain hdb | hdb := List.mem_append.mp hdb
        · exact .inl hdb
        · obtain rfl := List.mem_singleton.mp hdb
          exact .inr ⟨hu, by simp [hu']⟩
      born_kept := fun d hdb ↦ by
        rw [Ideal.answered, hborn]
        exact List.mem_append_left _ hdb
      settled := fun d hdu ↦ by
        obtain rfl : b = d := Option.some.inj (hu.symm.trans hdu)
        exact .inl (by rw [Ideal.answered, hborn]; exact List.mem_concat_self)
      unborn := fun d hdu ↦ by simp [hu'] at hdu
      fresh := fun d hnot hdb ↦ absurd (Store.has_content.mpr
        (hframe.storages ▸ Store.has_content.mp hdb)) hnot
      owes := howes
      supplied := fun hsome ↦ by simp [hu'] at hsome }

section Allocation

variable {a : Allocation} {b : StorageRef}

/-- An allocation that gets its storage sets it up beside the ideal state, which does not have it
yet. -/
private theorem carries_of_providing (hc : s.Coupled h p) (hs : s.Sound)
    (hj : s.job? i = some (.allocating a .provide))
    (hpermits : (p.limitsOf a.table).permits a.user a.kernel = true)
    (hsupply : supply.regions a.user a.kernel = true) :
    Carries (h ++ [(supply, .step i)]) i s.store
      { s.store with storages := s.store.storages.push { content := .zeroed a.user a.kernel } }
      (.allocating a .provide) (.allocating a (.lockContent s.store.storages.size)) p p where
  tables := rfl
  limits := rfl
  sessions := hc.sessions
  nextId := hc.nextId
  guards := fun _ _ ↦ rfl
  answers := fun _ _ ↦ rfl
  guard := by rw [hc.guard_eq hs hj rfl]; rfl
  answer := by rw [hc.answer_eq hj]; rfl
  index_kept := fun _ ↦ .inl rfl
  roster_kept := fun _ ↦ .inl rfl
  content_kept := fun _ ↦ .inl rfl
  index := fun t hh ↦ by simp [Job.held, Allocation.held] at hh
  roster := fun r hh ↦ by simp [Job.held, Allocation.held] at hh
  content := fun b hb ↦ by simp [Job.unborn?] at hb
  born := fun b hb ↦ .inl hb
  born_kept := fun b hb ↦ hb
  settled := fun b hb ↦ by simp [Job.unborn?] at hb
  unborn := fun b hb ↦ by
    obtain rfl : s.store.storages.size = b := by simpa [Job.unborn?] using hb
    exact .inr (by simp [Store.has_content])
  fresh := fun b hnot hb ↦ by
    have hle := Nat.le_of_not_lt (mt Store.has_content.mpr hnot)
    have hlt : b < s.store.storages.size + 1 := by simpa using Store.has_content.mp hb
    exact congrArg some (Nat.le_antisymm hle (Nat.le_of_lt_succ hlt))
  owes := ⟨hpermits, by simp [Store.contentOf]⟩
  supplied := fun _ ↦ .inr ⟨supply, List.mem_concat_self, hsupply⟩

/-- The storage of an allocation that has not taken effect stays full of zeros. -/
private theorem contentOf_of_owed (hr : Reachable limits s) {phase : Allocation.Phase}
    (hj : s.job? i = some (.allocating a phase))
    (hu : (Job.allocating a phase).unborn? = some b)
    (hz : s.store.contentOf b = .zeroed a.user a.kernel)
    (hrun : instr.run supply i s.store = some (next, store))
    (hon : ∀ content, instr.onContent b content = content) :
    store.contentOf b = .zeroed a.user a.kernel := by
  obtain ⟨call, hcall, hjob⟩ := job?_eq_some.mp hj
  have ho : call.job.owned? = some b := by
    rw [hjob]
    exact Job.owned?_of_unborn? hu
  have hhas := Store.has_of_unreleased (hr.sound.owned hcall ho).1
  rw [(Instr.changes_of_run hrun).content b hhas, hon, hz]

/-- An allocation without room for its key takes effect, and its storage is set up for nothing. -/
private theorem carries_of_reserving (hc : s.Coupled h p) (hr : Reachable limits s)
    (hj : s.job? i = some (.allocating a (.reserve b)))
    (hrun : (Instr.reserve a.registry a.user a.kernel (Job.allocating a (.draw b))
      (.allocating a (.abandonRegistry b a.unmet))).run supply i s.store =
        some (.allocating a (.abandonRegistry b a.unmet), store)) :
    Carries k i s.store store (.allocating a (.reserve b))
      (.allocating a (.abandonRegistry b a.unmet)) p
      ((p.provide a.user a.kernel b).answered i (.refused a.unmet)) := by
  have hs := hr.sound
  have hchanges := Instr.changes_of_run hrun
  have hcontent := contentOf_of_owed hr hj rfl (hc.owes i _ hj).2 hrun fun _ ↦ rfl
  refine hc.carries_of_birth (Instr.sameFrame_of_run hrun rfl) rfl rfl hcontent rfl rfl
    (fun t ↦ (hc.nextId t).trans (hchanges.nextId t).symm) ⟨rfl, rfl, rfl, rfl⟩ ⟨rfl, rfl⟩
    (fun _ ↦ .inl rfl) (fun _ ↦ .inl rfl) (fun t hh _ ↦ ?_) (fun r hh _ ↦ ?_) trivial
  · rw [hchanges.index]
    exact hc.index_of_held hs hj rfl .exclusive hh (by simp [Job.indexDebt?])
  · rw [hchanges.roster]
    exact hc.roster_of_held hs hj rfl .exclusive hh (by simp [Job.rosterDebt?])

/-- An allocation that draws its number takes effect, whether the key is in use or not. -/
private theorem carries_of_drawing (hc : s.Coupled h p) (hr : Reachable limits s)
    (hj : s.job? i = some (.allocating a (.draw b)))
    (hrun : (Instr.draw a.table fun id ↦ Job.allocating a (.insert b ⟨a.session, id⟩)).run supply i
      s.store = some (next, store)) :
    Carries k i s.store store (.allocating a (.draw b)) next p
      ((p.allocate a.table a.registry a.user a.kernel b).2.answered i
        (p.allocate a.table a.registry a.user a.kernel b).1) := by
  have hs := hr.sound
  have hindex : p.index a.table = s.store.indexOf a.table :=
    hc.index_of_held hs hj rfl .exclusive (by simp [Job.held, Allocation.held])
      (by simp [Job.indexDebt?])
  have hroster : p.roster a.registry = s.store.rosterOf a.registry :=
    hc.roster_of_held hs hj rfl .exclusive (by simp [Job.held, Allocation.held])
      (by simp [Job.rosterDebt?])
  have hsession : p.sessionOf a.registry = a.session :=
    (hc.sessionOf _).trans (hc.named i _ _ hj rfl).symm
  have hnumber := hc.nextId_of_draw hrun
  have hchanges := Instr.changes_of_run hrun
  have hframe := Instr.sameFrame_of_run hrun rfl
  have hcontent := contentOf_of_owed hr hj rfl (hc.owes i _ hj).2 hrun fun _ ↦ rfl
  obtain ⟨-, rfl, -⟩ := Instr.run_draw.mp hrun
  have hindex' : store.indexOf a.table = p.index a.table := by
    rw [hchanges.index]
    exact hindex.symm
  have hroster' : store.rosterOf a.registry = p.roster a.registry := by
    rw [hchanges.roster]
    exact hroster.symm
  have hkey : (⟨p.sessionOf a.registry, p.nextId a.table⟩ : Key) =
      ⟨a.session, s.store.nextIdOf a.table⟩ := by rw [hsession, hc.nextId]
  generalize hq : p.allocate a.table a.registry a.user a.kernel b = oq
  obtain ⟨o, q⟩ := oq
  have hsame : q.limits = p.limits ∧ q.sessions = p.sessions ∧
      q.nextId = Function.update p.nextId a.table ⟨(p.nextId a.table).number + 1⟩ ∧
      q.content = Function.update p.content b (.zeroed a.user a.kernel) ∧ q.born = p.born ++ [b] ∧
      q.guard = p.guard ∧ q.answer = p.answer := by
    simp only [Ideal.allocate] at hq
    split at hq <;> cases hq <;> exact ⟨rfl, rfl, rfl, rfl, rfl, rfl, rfl⟩
  have helsewhere : (∀ t, t ≠ a.table → q.index t = p.index t) ∧
      ∀ r, r ≠ a.registry → q.roster r = p.roster r := by
    simp only [Ideal.allocate] at hq
    split at hq <;> cases hq
    · exact ⟨fun _ _ ↦ rfl, fun _ _ ↦ rfl⟩
    · exact ⟨fun t ht ↦ Function.update_of_ne ht _ _, fun r hr ↦ Function.update_of_ne hr _ _⟩
  have hanswer : o.guard? = none ∧ Job.answer? store
      (.allocating a (.insert b ⟨a.session, s.store.nextIdOf a.table⟩)) = some o := by
    simp only [Ideal.allocate, hkey] at hq
    split at hq <;> cases hq <;> next hin => exact ⟨rfl, by simp [Job.answer?, hindex', hin]⟩
  have hdue : Job.Owes (q.answered i o) store
      (.allocating a (.insert b ⟨a.session, s.store.nextIdOf a.table⟩)) := by
    simp only [Ideal.allocate, hkey] at hq
    split at hq <;> cases hq <;> next hin =>
      simp [Job.Owes, Ideal.provide, Ideal.answered, hindex', hroster', hin]
  obtain ⟨hlimits, hsessions, hnext, hcontents, hborn, hguard, hanswers⟩ := hsame
  refine hc.carries_of_birth hframe rfl rfl hcontent hanswer.1.symm hanswer.2
    (fun t ↦ (congrFun hnext t).trans (hnumber t)) ⟨hlimits, hsessions, hcontents, hborn⟩
    ⟨hguard, hanswers⟩ (fun t ↦ ?_) (fun r ↦ ?_) (fun t hh hnot ↦ ?_) (fun r hh hnot ↦ ?_) hdue
  · by_cases ht : t = a.table
    · exact .inr (by simp [ht, Job.held, Allocation.held])
    · exact .inl (helsewhere.1 t ht)
  · by_cases hrr : r = a.registry
    · exact .inr (by simp [hrr, Job.held, Allocation.held])
    · exact .inl (helsewhere.2 r hrr)
  · obtain rfl : t = a.table := by simpa [Job.held, Allocation.held] using hh
    exact absurd rfl hnot
  · obtain rfl : r = a.registry := by simpa [Job.held, Allocation.held] using hh
    exact absurd rfl hnot

/-- An allocation takes effect when it draws its number, or when it is refused. -/
private theorem allocation (hc : s.Coupled h p) (hr : Reachable limits s)
    {phase : Allocation.Phase} {step : Instr Allocation.Phase}
    (hj : s.job? i = some (.allocating a phase)) (hp : a.progress phase = .next step)
    (hrun : (step.map (.allocating a)).run supply i s.store = some (next, store)) :
    Goes (h ++ [(supply, .step i)]) i s.store store (.allocating a phase) next p := by
  have hs := hr.sound
  have howes := hc.owes i _ hj
  have hchanges := Instr.changes_of_run hrun
  cases phase with
  | checkLimits =>
    cases hp
    obtain ⟨-, hx, -⟩ := Instr.run_consult.mp hrun
    dsimp only [Function.comp] at hx
    rw [← hc.limitsOf] at hx
    split at hx
    · next hpermits =>
      subst hx
      exact hc.silent hr hj rfl hrun rfl ⟨rfl, rfl, rfl, hpermits⟩ rfl rfl
    · next hnot =>
      subst hx
      refine hc.answers hr hj rfl hrun rfl ⟨rfl, rfl, rfl, trivial⟩ rfl
        (hc.names hr hj rfl (by simp))
        trivial (o := .refused a.unmet) ?_ rfl rfl
      simp [Job.request, Ideal.effect, hnot, Allocation.unmet]
  | provide =>
    cases hp
    obtain ⟨hsupply, rfl, rfl⟩ | ⟨hsupply, rfl, rfl⟩ := Instr.run_provide.mp hrun
    · exact ⟨p, .rest, hc.carries_of_providing hs hj howes hsupply⟩
    · refine hc.takes hj rfl (hc.names hr hj rfl (by simp)) trivial (.last ..) hc.not_born
        (o := .refused a.unmet) (q := p) ?_ (hc.carries_of_effect ⟨rfl, rfl, rfl⟩ rfl rfl rfl
          hc.nextId ⟨rfl, rfl, rfl, rfl⟩ ⟨rfl, rfl⟩ (fun _ ↦ .inl rfl) (fun _ ↦ .inl rfl)
          (fun t hh ↦ by simp [Job.held, Allocation.held] at hh)
          (fun r hh ↦ by simp [Job.held, Allocation.held] at hh) trivial)
      simp [Job.request, Ideal.effect, hsupply, Allocation.unmet]
  | lockContent b | lockRegistry b | lockTable b =>
    cases hp
    exact hc.quiet hr hj rfl hrun rfl ⟨⟨rfl, rfl, rfl, howes⟩, rfl, rfl⟩
  | reserve b =>
    cases hp
    obtain ⟨-, ⟨-, rfl⟩ | ⟨hfull, rfl⟩, -⟩ := Instr.run_reserve.mp hrun
    · exact hc.silent hr hj rfl hrun rfl ⟨rfl, rfl, rfl, howes⟩ rfl rfl
    · obtain ⟨σ, hσ, hmeets⟩ := hc.supplied i _ hj rfl
      refine hc.takes hj rfl (hc.names hr hj rfl (by simp)) trivial
        ⟨σ, supply, List.mem_append_left _ hσ, List.mem_concat_self, rfl⟩
        (fun hb ↦ (hc.born b hb).2 i _ hj rfl) ?_ (hc.carries_of_reserving hr hj hrun)
      have hmeets : σ.regions a.user a.kernel = true := hmeets
      simp [Job.request, Ideal.effect, howes.1, hmeets, hfull, Allocation.unmet]
  | draw b =>
    cases hp
    obtain ⟨σ, hσ, hmeets⟩ := hc.supplied i _ hj rfl
    obtain ⟨τ, hτ, hroom⟩ := hc.room i a b hj
    refine hc.takes hj rfl (hc.names hr hj rfl (by simp)) trivial
      ⟨σ, τ, List.mem_append_left _ hσ, List.mem_append_left _ hτ, rfl⟩
      (fun hb ↦ (hc.born b hb).2 i _ hj rfl) ?_ (hc.carries_of_drawing hr hj hrun)
    have hmeets : σ.regions a.user a.kernel = true := hmeets
    simp [Job.request, Ideal.effect, howes.1, hmeets, hroom]
  | insert b key =>
    cases hp
    have howes : if (s.store.indexOf a.table).contains key = true then
        p.index a.table = s.store.indexOf a.table ∧
          p.roster a.registry = s.store.rosterOf a.registry
      else p.index a.table = (s.store.indexOf a.table).insert key b ∧
        p.roster a.registry = (s.store.rosterOf a.registry).add key := howes
    obtain ⟨-, ⟨hin, rfl, -⟩ | ⟨hin, rfl, -⟩⟩ := Instr.run_insert.mp hrun
    · rw [if_pos hin] at howes
      refine hc.settles (t := a.table) (r := a.registry) hs hj rfl hrun rfl (fun _ _ ↦ rfl) rfl ?_
        rfl (fun _ ↦ by simp [Job.held, Allocation.held])
        (fun _ ↦ by simp [Job.held, Allocation.held]) (fun _ ↦ ?_) (fun _ ↦ ?_) trivial
      · simp [Job.answer?, hin]
      · rw [hchanges.index, howes.1]
        simp [Instr.map, Instr.onIndex, hin]
      · rw [hchanges.roster, howes.2]
        rfl
    · rw [if_neg (by simp [hin])] at howes
      refine hc.settles (t := a.table) (r := a.registry) hs hj rfl hrun rfl (fun _ _ ↦ rfl) rfl ?_
        rfl (fun _ ↦ by simp [Job.held, Allocation.held])
        (fun _ ↦ by simp [Job.held, Allocation.held]) (fun _ ↦ ?_) (absurd rfl) ?_
      · simp [Job.answer?, hin]
      · rw [hchanges.index, howes.1]
        simp [Instr.map, Instr.onIndex, hin]
      · simp only [Job.Owes]
        rw [hchanges.roster, howes.2]
        rfl
  | unlockTable b key =>
    cases hp
    exact hc.quiet hr hj rfl hrun rfl ⟨⟨rfl, rfl, rfl, howes⟩, rfl, rfl⟩
  | enlist b key =>
    cases hp
    obtain ⟨-, rfl, -⟩ := Instr.run_add.mp hrun
    refine hc.pays hs hj rfl hrun rfl (fun _ _ ↦ rfl) rfl rfl rfl (fun t hh _ ↦ ?_)
      (fun r hh _ ↦ ?_) trivial
    · simp [Job.held, Allocation.held] at hh
    · obtain rfl : r = a.registry := by simpa [Job.held, Allocation.held] using hh
      rw [hchanges.roster, show p.roster a.registry = _ from howes]
      simp [Instr.map, Instr.onRoster]
  | ended o => cases hp
  | _ =>
    cases hp
    exact hc.quiet hr hj rfl hrun rfl ⟨⟨rfl, rfl, rfl, trivial⟩, rfl, rfl⟩

end Allocation

/-- A teardown goes on with a sweep it has not finished, or gives the registry back. -/
private theorem resuming (d : Teardown) (w : Teardown.Sweep) (u : Store) :
    Job.answer? u (.tearingDown d (.resume w)) = none ∧
      Job.granted? (.tearingDown d (.resume w)) = none ∧
      Job.unborn? (.tearingDown d (.resume w)) = none ∧
      Job.indexDebt? (.tearingDown d (.resume w)) = some d.table ∧
      Job.rosterDebt? (.tearingDown d (.resume w)) = some d.registry := by
  unfold Teardown.Phase.resume
  split <;> exact ⟨rfl, rfl, rfl, rfl, rfl⟩

/-- A teardown that has swept all keys takes effect when it gives the registry back. -/
private theorem teardown_release (hc : s.Coupled h p) (hr : Reachable limits s) {d : Teardown}
    {w : Teardown.Sweep} (hj : s.job? i = some (.tearingDown d (.unlockRegistry w)))
    (hswept : d.Swept p s.store none w [])
    (hrun : (Instr.release (.registry d.registry) (Job.tearingDown d (.unlockTable w))).run supply i
      s.store = some (next, store)) :
    Goes (h ++ [(supply, .step i)]) i s.store store (.tearingDown d (.unlockRegistry w)) next
      p := by
  have hs := hr.sound
  have hchanges := Instr.changes_of_run hrun
  obtain ⟨-, rfl, -⟩ := Instr.run_release.mp hrun
  have hkeys : (p.roster d.registry).toList = w.passed.reverse := by
    rw [hswept.keys, List.append_nil]
  refine hc.takes hj rfl (hc.names hr hj rfl (by simp)) (fun key b hlisted hb j g hg hgb ↦ ?_)
    (.last ..) hc.not_born (o := .number w.released)
    (q := { p with
      index := Function.update p.index d.table
        ((p.index d.table).without (p.roster d.registry).toList)
      roster := Function.update p.roster d.registry (p.roster d.registry).drained.close }) ?_
    (hc.carries_of_both (t := d.table) (r := d.registry) (.tearingDown d (.unlockRegistry w)) hrun
      rfl (fun _ _ ↦ rfl) rfl rfl rfl (fun _ ↦ by simp [Job.held, Teardown.held])
      (fun _ ↦ by simp [Job.held, Teardown.held]) (fun _ ↦ ?_) (fun _ ↦ ?_)
      fun _ _ hw ↦ by (cases hw))
  · -- Nobody has a guard on what the sweep has released.
    rw [← Roster.mem_toList, hkeys, List.mem_reverse] at hlisted
    have hgone := (hswept.released key hlisted b hb).resolve_left (by simp)
    rw [hc.guard] at hg
    rw [← hgb, hs.live_of_granted? hg] at hgone
    cases hgone.2
  · simp [Job.request, Ideal.effect, Ideal.teardown, hkeys, List.countP_reverse, hswept.count]
  · rw [hchanges.index]
    refine Eq.trans ?_ hswept.index.symm
    exact Index.without_congr _ fun key ↦ by rw [hkeys, List.mem_reverse]
  · rw [hchanges.roster]
    exact hswept.roster.symm

/-- A teardown takes effect when it gives the registry back. -/
private theorem teardown (hc : s.Coupled h p) (hr : Reachable limits s) {d : Teardown}
    {phase : Teardown.Phase} {step : Instr Teardown.Phase}
    (hj : s.job? i = some (.tearingDown d phase)) (hp : d.progress phase = .next step)
    (hrun : (step.map (.tearingDown d)).run supply i s.store = some (next, store)) :
    Goes (h ++ [(supply, .step i)]) i s.store store (.tearingDown d phase) next p := by
  have hs := hr.sound
  have howes := hc.owes i _ hj
  have hknows := hs.knows_job? hj
  have hchanges := Instr.changes_of_run hrun
  cases phase with
  | finish c => exact howes.elim
  | close =>
    cases hp
    have hroster : p.roster d.registry = s.store.rosterOf d.registry :=
      hc.roster_of_held hs hj rfl .exclusive (by simp [Job.held, Teardown.held])
        (by simp [Job.rosterDebt?, Teardown.Phase.swept?])
    have hindex : p.index d.table = s.store.indexOf d.table :=
      hc.index_of_held hs hj rfl .exclusive (by simp [Job.held, Teardown.held])
        (by simp [Job.indexDebt?, Teardown.Phase.swept?])
    obtain ⟨-, rfl, -⟩ := Instr.run_close.mp hrun
    refine hc.settles (t := d.table) (r := d.registry) hs hj rfl hrun rfl (fun _ _ ↦ rfl) rfl rfl
      rfl (fun _ ↦ by simp [Job.held, Teardown.held]) (fun _ ↦ by simp [Job.held, Teardown.held])
      (fun _ ↦ ?_) (fun hnot ↦ absurd rfl hnot) ?_
    · rw [hchanges.index]
      exact hindex
    · show store.rosterOf d.registry = _
      rw [hchanges.roster, hroster]
      simp [Instr.map, Instr.onRoster]
  | drain first =>
    cases hp
    have hindex : p.index d.table = s.store.indexOf d.table :=
      hc.index_of_held hs hj rfl .exclusive (by simp [Job.held, Teardown.held])
        (by simp [Job.indexDebt?, Teardown.Phase.swept?])
    obtain ⟨-, rfl, -⟩ := Instr.run_drain.mp hrun
    dsimp only [Function.comp] at hrun ⊢
    obtain ⟨ha, hg, hu, hi, hro⟩ :=
      resuming d (.start first (s.store.rosterOf d.registry).toList) store
    have howes : s.store.rosterOf d.registry = (p.roster d.registry).close := howes
    refine hc.settles (t := d.table) (r := d.registry) hs hj rfl hrun rfl (fun _ _ ↦ rfl) hg ha hu
      (fun _ ↦ by simp [Job.held, Teardown.held]) (fun _ ↦ by simp [Job.held, Teardown.held])
      (absurd hi) (absurd hro) (Job.owes_resume ⟨?_, ?_, ?_, rfl, fun _ hk ↦ by cases hk⟩)
    · rw [hchanges.roster, howes]
      simp [Instr.map, Instr.onRoster, Roster.drained, Roster.close]
    · rw [howes]
      rfl
    · rw [hchanges.index]
      exact hindex.symm
  | find key w =>
    cases hp
    obtain ⟨-, hx, -⟩ := Instr.run_readIndex.mp hrun
    dsimp only [Function.comp] at hx
    split at hx
    · subst hx
      exact hc.silent hr hj rfl hrun rfl ⟨rfl, rfl, rfl, howes⟩ rfl rfl
    · next hnone =>
      subst hx
      refine hc.silent hr hj rfl hrun rfl ⟨rfl, rfl, rfl, ?_⟩ rfl rfl
      rintro _ _ ⟨⟩
      exact (howes _ _ rfl).skip hnone
  | reportMissing key w =>
    cases hp
    obtain ⟨rfl, -⟩ := Instr.run_log.mp hrun
    obtain ⟨ha, hg, hu, hi, hro⟩ := resuming d (w.skip key) s.store
    exact hc.silent hr hj rfl hrun rfl ⟨hi, hro, hu, Job.owes_resume (howes _ _ rfl)⟩ ha hg
  | lockContent key b w =>
    cases hp
    exact hc.quiet hr hj rfl hrun rfl ⟨⟨rfl, rfl, rfl, howes⟩, rfl, rfl⟩
  | erase key b w =>
    cases hp
    obtain ⟨-, rfl, -⟩ := Instr.run_erase.mp hrun
    refine hc.settles (t := d.table) (r := d.registry) hs hj rfl hrun rfl (fun _ _ ↦ rfl) rfl rfl
      rfl (fun _ ↦ by simp [Job.held, Teardown.held]) (fun _ ↦ by simp [Job.held, Teardown.held])
      (absurd rfl) (absurd rfl) ?_
    rintro _ _ ⟨⟩
    refine (howes _ _ rfl).take hknows ?_ (hchanges.roster _) fun c hb ↦ ?_
    · rw [hchanges.index]
      simp [Instr.map, Instr.onIndex]
    · exact ⟨hchanges.has _ hb.1, by rw [hchanges.content c hb.1]; exact hb.2⟩
  | dispose key b w =>
    cases hp
    have hb : s.store.Has (.content b) := by
      obtain ⟨call, hcall, hjob⟩ := job?_eq_some.mp hj
      exact Store.has_of_unreleased (hs.owned hcall (by rw [hjob]; rfl)).1
    have hcontent (c : StorageRef) (hb : s.store.Has (.content c)) :
        store.contentOf c = if b = c then .gone else s.store.contentOf c :=
      hchanges.content c hb
    obtain ⟨-, rfl, -⟩ := Instr.run_dispose.mp hrun
    refine hc.settles (t := d.table) (r := d.registry) hs hj rfl hrun rfl (fun _ _ ↦ rfl) rfl rfl
      rfl (fun _ ↦ by simp [Job.held, Teardown.held]) (fun _ ↦ by simp [Job.held, Teardown.held])
      (absurd rfl) (absurd rfl) ?_
    rintro _ _ ⟨⟩
    refine (howes _ _ rfl).dispose (hchanges.index _) (hchanges.roster _)
      ⟨hchanges.has _ hb, ?_⟩ fun c hb ↦ ⟨hchanges.has _ hb.1, ?_⟩
    · rw [hcontent b hb, if_pos rfl]
      rfl
    · rw [hcontent c hb.1]
      split
      · rfl
      · exact hb.2
  | unlockContent key b w =>
    cases hp
    obtain ⟨-, rfl, -⟩ := Instr.run_release.mp hrun
    obtain ⟨ha, hg, hu, hi, hro⟩ := resuming d (w.take key) s.store
    exact hc.silent hr hj rfl hrun rfl ⟨hi, hro, hu, Job.owes_resume (howes _ _ rfl)⟩ ha hg
  | unlockRegistry w =>
    cases hp
    exact hc.teardown_release hr hj (howes w [] rfl) hrun
  | countReleased w =>
    cases hp
    refine hc.quiet hr hj rfl hrun rfl ?_
    dsimp only [Instr.map, Instr.Always]
    split <;> exact ⟨⟨rfl, rfl, rfl, fun _ _ hw ↦ by (cases hw)⟩, rfl, rfl⟩
  | lockTable =>
    cases hp
    exact hc.quiet hr hj rfl hrun rfl ⟨⟨rfl, rfl, rfl, fun _ _ hw ↦ by (cases hw)⟩, rfl, rfl⟩
  | lockRegistry | unlockTable w | countClosed w | report w =>
    cases hp
    exact hc.quiet hr hj rfl hrun rfl ⟨⟨rfl, rfl, rfl, fun _ _ hw ↦ by (cases hw)⟩, rfl, rfl⟩
  | ended o => cases hp

/-- Every step of a call goes with an ideal state. -/
theorem goes (hc : s.Coupled h p) (hr : Reachable limits s) (hj : s.job? i = some job)
    (hn : job.progress = .next instr) (hrun : instr.run supply i s.store = some (next, store)) :
    Goes (h ++ [(supply, .step i)]) i s.store store job next p := by
  cases job with
  | accessing a phase => cases hc.atomic i _ _ hj hn
  | _ _ phase =>
    obtain ⟨step, hp, rfl⟩ := Progress.map_eq_next.mp hn
    first
      | exact hc.attachment hr hj hp hrun
      | exact hc.allocation hr hj hp hrun
      | exact hc.removal hr hj hp hrun
      | exact hc.teardown hr hj hp hrun
      | exact hc.lookup hr hj hp hrun
      | exact hc.inspection hr hj hp hrun
      | exact hc.rosterCall hr hj hp hrun
      | exact hc.drawing hr hj hp hrun

end Coupled

end Service

end SessionBuffers
