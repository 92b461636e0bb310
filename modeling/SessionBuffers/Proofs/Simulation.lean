import SessionBuffers.Proofs.Moments

/-!
# Every action goes with an ideal state

From the service before any call on, an ideal state goes with the service through every history of
calls that take effect at one moment. What a client does at once is done to the ideal state at once;
what calls do to it is what they take effect with.
-/

namespace SessionBuffers

/-- Whether an action is about a call: it is made, or it makes a step. -/
def Action.isCalling : Action → Bool
  | .invoke _ | .step _ => true
  | _ => false

namespace Service

variable {limits : List Limits} {supply : Supply} {s s' : Service} {action : Action}
  {request : Request} {i : CallRef} {g : Guard} {h k : History} {p p' : Ideal}

theorem coupled_withTables (limits : List Limits) :
    (withTables limits).Coupled [] (Ideal.initial limits) := by
  have hjob (i : CallRef) : (withTables limits).job? i = none := by simp [withTables, job?]
  constructor
  case limits => simp [Ideal.initial, withTables, Store.withTables, Function.comp_def]
  case sessions => simp [Ideal.initial, withTables, Store.withTables]
  case nextId =>
    intro t
    cases ht : limits[t]? <;>
      simp [Ideal.initial, withTables, Store.withTables, Store.nextIdOf, ht]
  case guard => exact fun i ↦ by simp [Ideal.initial, withTables, granted?]
  case answer => exact fun i ↦ by simp [Ideal.initial, hjob]
  case index =>
    intro t _
    cases ht : limits[t]? <;>
      simp [Ideal.initial, withTables, Store.withTables, Store.indexOf, ht]
  case roster => exact fun r _ ↦ rfl
  case content => exact fun b _ _ ↦ rfl
  case born => exact fun b hb ↦ by (cases hb)
  case settled => exact fun b hb ↦ absurd (Store.has_content.mp hb) (Nat.not_lt_zero b)
  case named | atomic =>
    intro i job _ hj
    cases (hjob i).symm.trans hj
  case room =>
    intro i a b hj
    cases (hjob i).symm.trans hj
  all_goals
    intro i job hj
    cases (hjob i).symm.trans hj

/-- What has been supplied may be forgotten but for allocations under way. -/
theorem Coupled.rebase (hc : s.Coupled h p)
    (hk : ∀ i job, s.job? i = some job → job.unborn?.isSome →
      ∃ supply, (supply, .step i) ∈ k ∧ supply.Meets job.request)
    (hroom : ∀ i a b, s.job? i = some (.allocating a (.draw b)) →
      ∃ supply, (supply, .step i) ∈ k ∧ supply.slot a.user a.kernel = true) : s.Coupled k p :=
  { hc with supplied := hk, room := hroom }

theorem Coupled.append (hc : s.Coupled h p) (k : History) : s.Coupled (h ++ k) p := by
  refine hc.rebase (fun i job hj hu ↦ ?_) fun i a b hj ↦ ?_
  · obtain ⟨supply, hmem, hmeets⟩ := hc.supplied i job hj hu
    exact ⟨supply, List.mem_append_left _ hmem, hmeets⟩
  · obtain ⟨supply, hmem, hslot⟩ := hc.room i a b hj
    exact ⟨supply, List.mem_append_left _ hmem, hslot⟩

/-- A step of a call takes at most its effect. -/
theorem Coupled.step (hc : s.Coupled h p) (hr : Reachable limits s)
    (hd : s.Does supply (.step i) s') :
    ∃ job p', s.job? i = some job ∧
      Takes (History.Offers (h ++ [(supply, .step i)]) i) i job.request p p' ∧
      s'.Coupled (h ++ [(supply, .step i)]) p' := by
  obtain ⟨call, instr, next, hcall, hn, hrun, hcalls⟩ := hd.calls_step
  have hj : s.job? i = some call.job := job?_eq_some.mpr ⟨call, hcall, rfl⟩
  have hj' : s'.job? i = some next := job?_eq_some.mpr ⟨_, by rw [hcalls, if_pos rfl], rfl⟩
  obtain ⟨p', htakes, hcarries⟩ := hc.goes hr hj hn hrun
  exact ⟨call.job, p', hj, htakes, hc.carry hr hd hj hj' hcarries⟩

/-! ### A call is made -/

/-- A call that has just been made, with the answer it has at once if any. -/
private theorem Coupled.push (hc : s.Coupled h p) {job : Job} (ha : job.request.isAtomic = true)
    (hnamed : job.Named s.store) (hi : job.indexDebt? = none) (hro : job.rosterDebt? = none)
    (hu : job.unborn? = none) (howes : ∀ q, job.Owes q s.store) (hg : job.granted? = none)
    (hcells : p'.limits = p.limits ∧ p'.sessions = p.sessions ∧ p'.nextId = p.nextId ∧
      p'.index = p.index ∧ p'.roster = p.roster ∧ p'.content = p.content ∧ p'.born = p.born)
    (hguard : p'.guard = p.guard)
    (hanswer : p'.answer = Function.update p.answer s.calls.size (job.answer? s.store)) :
    { s with calls := s.calls.push { job } }.Coupled h p' := by
  obtain ⟨hlimits, hsessions, hnumber, hindex, hroster, hcontent, hborn⟩ := hcells
  have hjob (j : CallRef) : { s with calls := s.calls.push { job } }.job? j =
      if j = s.calls.size then some job else s.job? j := by
    simp only [job?, Array.getElem?_push]
    split <;> rfl
  have hcases {j : CallRef} {other : Job}
      (hj : { s with calls := s.calls.push { job } }.job? j = some other) :
      other = job ∨ s.job? j = some other := by
    rw [hjob] at hj
    split at hj
    · exact .inl (Option.some.inj hj).symm
    · exact .inr hj
  have hkept {j : CallRef} {other : Job} (hj : s.job? j = some other) :
      { s with calls := s.calls.push { job } }.job? j = some other := by
    obtain ⟨call, hcall, -⟩ := job?_eq_some.mp hj
    rw [hjob, if_neg (Nat.ne_of_lt (Array.getElem?_eq_some_iff.mp hcall).1), hj]
  constructor
  case limits => rw [hlimits, hc.limits]
  case sessions => rw [hsessions, hc.sessions]
  case nextId => exact fun t ↦ by rw [hnumber, hc.nextId]
  case guard =>
    intro j
    rw [hguard, hc.guard, granted?, granted?, Array.getElem?_push]
    split
    · next he => simp [he, hg]
    · rfl
  case answer =>
    intro j
    rw [hanswer, hjob]
    by_cases hj : j = s.calls.size
    · simp [hj]
    · simp [hj, hc.answer]
  case index =>
    intro t hno
    rw [hindex, hc.index t fun j other hj ↦ hno j other (hkept hj)]
  case roster =>
    intro r hno
    rw [hroster, hc.roster r fun j other hj ↦ hno j other (hkept hj)]
  case content =>
    intro b hlive hno
    rw [hcontent, hc.content b hlive fun j other hj ↦ hno j other (hkept hj)]
  case born =>
    intro b hb
    obtain ⟨hhas, hno⟩ := hc.born b (hborn ▸ hb)
    refine ⟨hhas, fun j other hj ↦ ?_⟩
    obtain rfl | hj := hcases hj
    · simp [hu]
    · exact hno j other hj
  case settled =>
    intro b hb
    rw [hborn]
    obtain hset | ⟨j, other, hj, hb⟩ := hc.settled b hb
    · exact .inl hset
    · exact .inr ⟨j, other, hkept hj, hb⟩
  case owes =>
    intro j other hj
    obtain rfl | hj := hcases hj
    · exact howes _
    · exact (hc.owes j other hj).congr hlimits (fun t _ ↦ ⟨by rw [hindex], rfl⟩)
        (fun r _ ↦ ⟨by rw [hroster], rfl⟩) (fun _ _ ↦ rfl) fun _ hb ↦ hb
  case named =>
    intro j other _ hj hgoes
    obtain rfl | hj := hcases hj
    · exact hnamed
    · exact hc.named j other _ hj hgoes
  case atomic =>
    intro j other _ hj hgoes
    obtain rfl | hj := hcases hj
    · exact ha
    · exact hc.atomic j other _ hj hgoes
  case supplied =>
    intro j other hj hub
    obtain rfl | hj := hcases hj
    · rw [hu] at hub
      cases hub
    · exact hc.supplied j other hj hub
  case room =>
    intro j a b hj
    obtain rfl | hj := hcases hj
    · cases hu
    · exact hc.room j a b hj

/-- A call that is made takes no effect yet, unless it is turned away at once. -/
theorem Coupled.invoke (hc : s.Coupled h p) (ha : request.isAtomic = true)
    (hd : s.Does supply (.invoke request) s') :
    ∃ p', Takes (· = supply) s.calls.size request p p' ∧
      s'.Coupled (h ++ [(supply, .invoke request)]) p' := by
  cases hd with
  | tend hk _ => cases hk
  | @invoke _ job hj =>
    obtain ⟨rfl, hnamed, hi, hro, hu, howes, hanswer⟩ := Job.begins_of_ofRequest? ha hj
    have hg := (Job.idle_of_ofRequest? hj).2.2.1
    have hfresh : p.answer s.calls.size = none := by simp [hc.answer, job?]
    obtain hnone | ⟨r, key, hrequest, hforeign, hmisuse⟩ := hanswer
    · refine ⟨p, .rest, (hc.push ha hnamed hi hro hu howes hg ⟨rfl, rfl, rfl, rfl, rfl, rfl, rfl⟩
        rfl ?_).append _⟩
      rw [hnone, ← hfresh, Function.update_eq_self]
    · have hsession : key.session ≠ p.sessionOf r := by rwa [hc.sessionOf]
      have hnames : p.Names (.roster r (.add key)) := by
        rw [hrequest] at hj
        obtain ⟨registry, hregistry, -⟩ := Option.map_eq_some_iff.mp hj
        exact hc.has_registry.mp (Store.has_registry_iff.mpr ⟨registry, hregistry⟩)
      refine ⟨_, .effect (b := s.store.storages.size) rfl
        ⟨hfresh, ha, hrequest ▸ hnames, by rw [hrequest]; trivial, hc.not_born⟩,
        (hc.push ha hnamed hi hro hu howes hg ?_ ?_ ?_).append _⟩
      · rw [hrequest]
        refine ⟨rfl, rfl, rfl, rfl, ?_, rfl, rfl⟩
        simp [Ideal.after, Ideal.effect, Ideal.answered, RosterAction.effect, hsession]
      · have hnone : p.guard s.calls.size = none := by simp [hc.guard, granted?]
        rw [hrequest]
        simp only [Ideal.after, Ideal.effect, Ideal.answered, RosterAction.guard?_answer]
        rw [← hnone, Function.update_eq_self]
      · rw [hrequest, hmisuse]
        simp [Ideal.after, Ideal.effect, Ideal.answered, RosterAction.answer, hsession]

/-! ### What a client does at once -/

/-- Storage of an allocation that has not taken effect is in nobody's hands. -/
theorem Sound.not_unborn_of_granted? (hs : s.Sound) (hg : s.granted? i = some g) {j : CallRef}
    {job : Job} (hj : s.job? j = some job) : job.unborn? ≠ some g.handle.storage := by
  intro hu
  obtain ⟨holder, hholder, -, hgranted⟩ := granted?_eq_some.mp hg
  obtain ⟨call, hcall, rfl⟩ := job?_eq_some.mp hj
  obtain ⟨a, k, maker, hmaker, hkept⟩ :=
    hs.used hholder (Job.used?_of_granted? hgranted (hs.proper hholder))
  obtain ⟨a', hmade⟩ := Job.made?_of_unborn? hu
  obtain rfl := hs.maker_unique hmaker hcall (Job.made?_of_kept? hkept) hmade
  cases hcall.symm.trans hmaker
  rw [Job.kept?_of_owned? (Job.owned?_of_unborn? hu)] at hkept
  cases hkept

/-- The rule for actions that concern no call under way. -/
private theorem Coupled.congr (hc : s.Coupled h p) (hj : ∀ i, s'.job? i = s.job? i)
    (hlimits : s'.store.tables.map Table.limits = s.store.tables.map Table.limits)
    (hsessions : s'.store.registries = s.store.registries)
    (hindex : ∀ t, s'.store.indexOf t = s.store.indexOf t)
    (hhas : ∀ b, s'.store.Has (.content b) ↔ s.store.Has (.content b))
    (hreleased : ∀ b, (s'.store.contentOf b).released = (s.store.contentOf b).released)
    (hcells : p'.limits = p.limits ∧ p'.sessions = p.sessions ∧ p'.index = p.index ∧
      p'.roster = p.roster ∧ p'.born = p.born ∧ p'.answer = p.answer)
    (hnumber : ∀ t, p'.nextId t = s'.store.nextIdOf t) (hguard : ∀ i, p'.guard i = s'.granted? i)
    (hcontent : ∀ b, (s.store.contentOf b).released = false →
      (∀ i job, s.job? i = some job → job.unborn? ≠ some b) → p'.content b = s'.store.contentOf b)
    (hunborn : ∀ i job b, s.job? i = some job → job.unborn? = some b →
      s'.store.contentOf b = s.store.contentOf b) : s'.Coupled h p' := by
  obtain ⟨hl, hss, hi, hro, hborn, hanswer⟩ := hcells
  have hroster (r : RegistryRef) : s'.store.rosterOf r = s.store.rosterOf r := by
    rw [Store.rosterOf, hsessions]
    rfl
  constructor
  case limits => rw [hl, hc.limits, hlimits]
  case sessions => rw [hss, hc.sessions, hsessions]
  case nextId => exact hnumber
  case guard => exact hguard
  case answer =>
    intro j
    rw [hanswer, hc.answer, hj]
    cases s.job? j with
    | none => rfl
    | some job => exact (Job.answer?_congr fun t _ ↦ hindex t).symm
  case index =>
    intro t hno
    rw [hi, hindex, hc.index t fun j job hjob ↦ hno j job ((hj j).trans hjob)]
  case roster =>
    intro r hno
    rw [hro, hroster, hc.roster r fun j job hjob ↦ hno j job ((hj j).trans hjob)]
  case content =>
    intro b hlive hno
    exact hcontent b ((hreleased b).symm.trans hlive) fun j job hjob ↦ hno j job ((hj j).trans hjob)
  case born =>
    intro b hb
    obtain ⟨hb, hno⟩ := hc.born b (hborn ▸ hb)
    exact ⟨(hhas b).mpr hb, fun j job hjob ↦ hno j job ((hj j).symm.trans hjob)⟩
  case settled =>
    intro b hb
    rw [hborn]
    obtain hset | ⟨j, job, hjob, hb⟩ := hc.settled b ((hhas b).mp hb)
    · exact .inl hset
    · exact .inr ⟨j, job, (hj j).trans hjob, hb⟩
  case owes =>
    intro j job hjob
    rw [hj] at hjob
    exact (hc.owes j job hjob).congr hl (fun t _ ↦ ⟨by rw [hi], hindex t⟩)
      (fun r _ ↦ ⟨by rw [hro], hroster r⟩) (fun b hb ↦ hunborn j job b hjob hb)
      fun b hb ↦ ⟨(hhas b).mpr hb.1, (hreleased b).trans hb.2⟩
  case named =>
    intro j job _ hjob hgoes
    have hnamed := hc.named j job _ ((hj j).symm.trans hjob) hgoes
    have hsession (r : RegistryRef) : s'.store.sessionOf r = s.store.sessionOf r := by
      rw [Store.sessionOf, hsessions]
      rfl
    cases job with
    | allocating | freeing | editing => simpa only [Job.Named, hsession] using hnamed
    | _ => trivial
  case atomic => exact fun j job _ hjob ↦ hc.atomic j job _ ((hj j).symm.trans hjob)
  case supplied => exact fun j job hjob ↦ hc.supplied j job ((hj j).symm.trans hjob)
  case room => exact fun j a b hjob ↦ hc.room j a b ((hj j).symm.trans hjob)

/-- Dropping a guard is done to the ideal state at once. -/
private theorem Coupled.drop (hc : s.Coupled h p) (hs : s.Sound)
    (hd : s.Does supply (.dropGuard i) s') :
    p.Ready (.act (.dropGuard i)) ∧ s'.Coupled h (p.after (.act (.dropGuard i))) := by
  cases hd with
  | tend hk _ => cases hk
  | @drop _ call g hcall hg hb =>
    have hgranted := hs.granted?_of_guard? (guard?_eq_some.mpr ⟨call, hcall, hg⟩)
    refine ⟨by simp [Ideal.Ready, hc.guard, hgranted], hc.congr (fun j ↦ ?_) ?_ ?_
      (fun t ↦ Store.indexOf_setLock ..) (fun b ↦ by simp)
      (fun b ↦ congrArg _ (Store.contentOf_setLock ..)) ⟨rfl, rfl, rfl, rfl, rfl, rfl⟩ (fun t ↦ ?_)
      (fun j ↦ ?_) (fun b hlive hno ↦ ?_) fun _ _ b _ _ ↦ Store.contentOf_setLock ..⟩
    · simp only [job?, getElem?_calls_modify hcall]
      split
      · next he => simp [← he, hcall]
      · rfl
    · rfl
    · rfl
    · exact (hc.nextId t).trans (Store.nextIdOf_setLock ..).symm
    · simp only [Ideal.after, granted?, getElem?_calls_modify hcall]
      by_cases hji : j = i
      · simp [hji]
      · rw [Function.update_of_ne hji, hc.guard, granted?, if_neg (Ne.symm hji)]
    · exact (hc.content b hlive hno).trans (Store.contentOf_setLock ..).symm

/-- The ideal state knows the content under a guard. -/
theorem Coupled.content_under_guard {g : Guard} (hc : s.Coupled h p) (hs : s.Sound)
    (hg : s.guard? i = some g) :
    p.guard i = some g ∧ p.content g.handle.storage = s.store.contentOf g.handle.storage := by
  have hgranted := hs.granted?_of_guard? hg
  exact ⟨(hc.guard i).trans hgranted, hc.content _ (hs.live_of_guard? hg) fun j job hj ↦
    hs.not_unborn_of_granted? hgranted hj⟩

/-- Writing under guards is done to the ideal state at once, when it becomes of the content there
what becomes of it in the service. -/
private theorem Coupled.writes {storages : Array Storage} {content : StorageRef → Content}
    (hc : s.Coupled h p) (hs : s.Sound) (hw : s.Writes action storages)
    (hcontent : ∀ b, (s.store.contentOf b).released = false →
      (∀ j job, s.job? j = some job → job.unborn? ≠ some b) →
        content b = ({ s.store with storages } : Store).contentOf b) :
    { s with store := { s.store with storages } }.Coupled h { p with content } := by
  refine hc.congr (fun j ↦ rfl) rfl rfl (fun t ↦ rfl) (fun b ↦ hw.has _)
    (fun b ↦ hs.released_of_writes hw b) ⟨rfl, rfl, rfl, rfl, rfl, rfl⟩ hc.nextId hc.guard hcontent
    fun j job b hj hu ↦ ?_
  rcases hw.content_or b with hsame | ⟨k, -, g, hg, -, rfl⟩
  · exact hsame
  · exact absurd hu (hs.not_unborn_of_granted? (hs.granted?_of_guard? hg) hj)

/-- Editing content under a guard is done to the ideal state at once. -/
private theorem Coupled.edit (hc : s.Coupled h p) (hs : s.Sound) {which : Side} {e : Region.Edit}
    (hd : s.Does supply (.edit i which e) s') :
    p.Ready (.act (.edit i which e)) ∧ s'.Coupled h (p.after (.act (.edit i which e))) := by
  cases hd with
  | tend hk _ => cases hk
  | edit hw =>
    cases id hw with
    | @edit _ _ _ _ g region hg hb hm he hl hafter =>
      obtain ⟨hguard, hsame⟩ := hc.content_under_guard hs hg
      have hedit : (p.content g.handle.storage).edit? which e =
          some ((s.store.contentOf g.handle.storage).setSide which region) := by
        rw [hsame, Content.edit?, he]
        rfl
      refine ⟨⟨g, hguard, hm, by rw [hedit]; rfl⟩, ?_⟩
      simp only [Ideal.after, hguard, Ideal.edited, hedit]
      apply hc.writes hs hw
      intro b hlive hno
      rw [hafter]
      by_cases hgb : g.handle.storage = b
      · simp [hgb]
      · rw [if_neg hgb, ← hc.content b hlive hno]
        exact Function.update_of_ne (Ne.symm hgb) _ _

/-- Swapping contents under guards is done to the ideal state at once. -/
private theorem Coupled.swap (hc : s.Coupled h p) (hs : s.Sound) {j : CallRef}
    (hd : s.Does supply (.swap i j) s') :
    p.Ready (.act (.swap i j)) ∧ s'.Coupled h (p.after (.act (.swap i j))) := by
  cases hd with
  | tend hk _ => cases hk
  | swap hw =>
    cases id hw with
    | @swap _ _ _ g f hne hg hf hb hd hm hn hl hafter =>
      obtain ⟨hguard, hsame⟩ := hc.content_under_guard hs hg
      obtain ⟨hguard', hsame'⟩ := hc.content_under_guard hs hf
      refine ⟨⟨g, f, hguard, hguard', hne, hm, hn⟩, ?_⟩
      simp only [Ideal.after, hguard, hguard', Ideal.swapped]
      apply hc.writes hs hw
      intro b hlive hno
      rw [hafter, Function.comp_apply, Equiv.swap_apply_def]
      split_ifs
      · exact hsame'
      · exact hsame
      · exact hc.content b hlive hno

/-- What is done to the counters or the next number of a table is done to the ideal state at
once. -/
private theorem Coupled.tend (hc : s.Coupled h p) {t : TableRef} {table : Table}
    (ht : s.store.tables[t]? = some table) (f : Table → Table)
    (hl : ∀ table, (f table).limits = table.limits) (hi : ∀ table, (f table).index = table.index)
    {n : TableRef → BufferId}
    (hn : n = Function.update p.nextId t (f table).nextId) :
    { s with store := s.store.modifyTable t f }.Coupled h { p with nextId := n } := by
  refine hc.congr (fun _ ↦ rfl) ?_ rfl (Store.indexOf_modifyTable_of f hi) (fun _ ↦ Iff.rfl)
    (fun _ ↦ rfl) ⟨rfl, rfl, rfl, rfl, rfl, rfl⟩ (fun u ↦ ?_) hc.guard hc.content
    fun _ _ _ _ _ ↦ rfl
  · refine Array.ext_getElem? fun u ↦ ?_
    simp only [Store.modifyTable, Array.getElem?_map, Array.getElem?_modify]
    split
    · cases s.store.tables[u]? <;> simp [hl]
    · rfl
  · subst hn
    rw [Store.nextIdOf_modifyTable ht]
    by_cases hu : u = t
    · simp [hu]
    · rw [if_neg (Ne.symm hu), ← hc.nextId]
      exact Function.update_of_ne hu _ _

/-- What a client does at once is done to the ideal state at once. -/
theorem Coupled.act (hc : s.Coupled h p) (hs : s.Sound) (ha : s.act? supply action = some s')
    (hcall : action.isCalling = false) :
    p.Ready (.act action) ∧ s'.Coupled (h ++ [(supply, action)]) (p.after (.act action)) := by
  cases action with
  | invoke request | step i => cases hcall
  | dropGuard i =>
    obtain ⟨hready, hc⟩ := hc.drop hs (does_of_act? ha)
    exact ⟨hready, hc.append _⟩
  | edit i which e =>
    obtain ⟨hready, hc⟩ := hc.edit hs (does_of_act? ha)
    exact ⟨hready, hc.append _⟩
  | swap i j =>
    obtain ⟨hready, hc⟩ := hc.swap hs (does_of_act? ha)
    exact ⟨hready, hc.append _⟩
  | setNextId t id =>
    obtain ⟨table, ht, he⟩ := Option.bind_eq_some_iff.mp ha
    cases he
    exact ⟨hc.has_table.mp (Store.has_table_iff.mpr ⟨table, ht⟩),
      (hc.tend ht _ (by intro _; rfl) (by intro _; rfl) rfl).append _⟩
  | resetCounters t | count t which amount =>
    obtain ⟨table, ht, he⟩ := Option.bind_eq_some_iff.mp ha
    cases he
    refine ⟨hc.has_table.mp (Store.has_table_iff.mpr ⟨table, ht⟩),
      (hc.tend (n := p.nextId) ht _ (by intro _; rfl) (by intro _; rfl) ?_).append _⟩
    rw [← Store.nextIdOf_eq ht, ← hc.nextId, Function.update_eq_self]

end Service

end SessionBuffers
