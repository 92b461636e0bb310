import SessionBuffers.Proofs.Aftermath
import SessionBuffers.Proofs.Closure
import SessionBuffers.Proofs.Matching
import SessionBuffers.Proofs.Sweeping

/-!
# What a registry has recorded

A key is in a roster when it has been added and not since been removed or drained
(`Roster.Recorded`), whoever has done so. In what order the keys of a set are enumerated does not
matter, for there is one way only to list them in ascending order. So what a registry answers, and
the order in which a teardown goes through it, depend on the set and not on the history that has led
to it.
-/

namespace SessionBuffers

/-! ### Sorted lists -/

/-- Whether a list has everything of a kind once, in any order. -/
structure Enumerates (ks : List Key) (p : Key → Prop) : Prop where
  nodup : ks.Nodup
  mem : ∀ k, k ∈ ks ↔ p k

namespace Key

variable {ks ls : List Key} {k : Key}

theorem mem_sort : k ∈ sort ks ↔ k ∈ ks := (List.mergeSort_perm ks _).mem_iff

/-- Different keys are sorted in strictly ascending order. -/
theorem ordered_sort (h : ks.Nodup) : (sort ks).Pairwise fun a b ↦ compare a b = .lt := by
  have hle : (sort ks).Pairwise fun a b ↦ (compare a b).isLE = true := by
    apply List.pairwise_mergeSort
    · exact fun a b c hab hbc ↦ Std.TransCmp.isLE_trans hab hbc
    · intro a b
      have hswap : compare b a = (compare a b).swap := Std.OrientedCmp.eq_swap
      rw [hswap]
      cases compare a b <;> rfl
  have hne : (sort ks).Nodup := (List.mergeSort_perm ks _).nodup_iff.mpr h
  apply hle.imp₂ _ hne
  intro a b hab hne
  cases hc : compare a b with
  | lt => rfl
  | eq => exact absurd (Std.LawfulEqCmp.eq_of_compare hc) hne
  | gt => simp [hc] at hab

/-- However keys are enumerated, there is one way only to list them in ascending order. -/
theorem sort_eq (hk : ks.Nodup) (hl : ls.Pairwise fun a b ↦ compare a b = .lt)
    (h : ∀ k, k ∈ ks ↔ k ∈ ls) : sort ks = ls :=
  eq_of_ascending (ordered_sort hk) hl fun k ↦ mem_sort.trans (h k)

theorem length_sort : (sort ks).length = ks.length := (List.mergeSort_perm ks _).length_eq

/-- Ascending keys of one session have ascending numbers. -/
theorem ordered_buffers {session : SessionId} (h : ks.Pairwise fun a b ↦ compare a b = .lt)
    (hs : ∀ k ∈ ks, k.session = session) :
    (ks.map Key.buffer).Pairwise fun a b ↦ compare a b = .lt := by
  rw [List.pairwise_map]
  apply h.imp_of_mem
  intro a b ha hb hlt
  have hsame : compare session session = .eq := Std.ReflCmp.compare_self
  rwa [compare_eq, hs a ha, hs b hb, hsame, Ordering.eq_then] at hlt

end Key

/-! ### Edits -/

namespace Roster

variable {roster : Roster} {ks : List Key} {key : Key}

theorem ordered_toList (roster : Roster) :
    roster.toList.Pairwise fun a b ↦ compare a b = .lt :=
  Std.ExtTreeSet.ordered_toList

/-- A roster lists its keys as they are sorted, however they are enumerated. -/
theorem toList_eq_sort (h : Enumerates ks fun k ↦ roster.contains k = true) :
    roster.toList = Key.sort ks :=
  (Key.sort_eq h.nodup roster.ordered_toList fun k ↦ (h.mem k).trans mem_toList.symm).symm

/-- Something that is done to a set of keys. -/
inductive Edit where
  | add (key : Key)
  | remove (key : Key)
  | drain
  deriving DecidableEq

variable {e : Edit} {es xs ys : List Edit}

/-- What an edit makes of a roster. -/
def edited (roster : Roster) : Edit → Roster
  | .add key => roster.add key
  | .remove key => roster.remove key
  | .drain => roster.drained

/-- Whether none of some edits takes a key out. -/
def Kept (es : List Edit) (key : Key) : Prop := Edit.remove key ∉ es ∧ Edit.drain ∉ es

/-- Whether one of some edits adds a key that no later one takes out. -/
def Recorded (es : List Edit) (key : Key) : Prop :=
  ∃ before after, es = before ++ .add key :: after ∧ Kept after key

theorem kept_append : Kept (xs ++ ys) key ↔ Kept xs key ∧ Kept ys key := by
  simp only [Kept, List.mem_append, not_or]
  tauto

theorem not_recorded_nil : ¬ Recorded [] key := by
  rintro ⟨before, after, h, -⟩
  simp at h

theorem recorded_cons : Recorded (e :: es) key ↔ e = .add key ∧ Kept es key ∨ Recorded es key := by
  constructor
  · rintro ⟨before, after, h, hkept⟩
    cases before with
    | nil =>
      obtain ⟨rfl, rfl⟩ := List.cons.inj h
      exact .inl ⟨rfl, hkept⟩
    | cons e' before =>
      obtain ⟨rfl, rfl⟩ := List.cons.inj h
      exact .inr ⟨before, after, rfl, hkept⟩
  · rintro (⟨rfl, hkept⟩ | ⟨before, after, rfl, hkept⟩)
    · exact ⟨[], es, rfl, hkept⟩
    · exact ⟨e :: before, after, rfl, hkept⟩

theorem recorded_append :
    Recorded (xs ++ ys) key ↔ Recorded xs key ∧ Kept ys key ∨ Recorded ys key := by
  induction xs with
  | nil => simp [not_recorded_nil]
  | cons x xs ih =>
    rw [List.cons_append, recorded_cons, recorded_cons, ih, kept_append]
    tauto

/-- Nothing comes into a roster without an edit, and nothing goes. -/
theorem contains_unedited (roster : Roster) (key : Key) :
    roster.contains key = true ↔ Recorded [] key ∨ roster.contains key = true ∧ Kept [] key := by
  simp [not_recorded_nil, Kept]

/-- What is in a roster after an edit: what the edit has added, and what it has left. -/
theorem contains_edited (roster : Roster) (e : Edit) (key : Key) :
    (roster.edited e).contains key = true ↔
      Recorded [e] key ∨ roster.contains key = true ∧ Kept [e] key := by
  have hnil : ¬ Recorded [] key := not_recorded_nil
  rw [recorded_cons]
  cases e with
  | add k => simp [edited, contains_add, Kept, hnil]
  | remove k =>
    rw [edited, contains_remove, and_comm, ne_comm]
    simp [Kept, hnil]
  | drain => simp [edited, not_contains_drained, Kept, hnil]

end Roster

/-! ### What calls do to rosters -/

/-- The edit that an action on a roster makes when its turn comes. -/
def RosterAction.edit? : RosterAction → Option Roster.Edit
  | .add key => some (.add key)
  | .remove key => some (.remove key)
  | .drain => some .drain
  | _ => none

/-- What an action on the roster of a session does to its keys when it is run. -/
def RosterAction.edits (session : SessionId) : RosterAction → List Roster.Edit
  | .add key => if key.session = session then [.add key] else []
  | action => action.edit?.toList

/-- What an action on the roster of a session is answered when the keys are enumerated as these. -/
def RosterAction.told (session : SessionId) (ks : List Key) : RosterAction → Outcome
  | .add key => if key.session = session then .done else .misuse
  | .remove key | .contains key | .tryContains key => .flag (ks.contains key)
  | .drain | .keys => .keys (Key.sort ks)
  | .size => .number ks.length

namespace RosterAction

open Roster (Recorded Kept)

variable {session : SessionId} {roster : Roster} {ks : List Key} {k : Key}

/-- What an action leaves of a roster, and what it brings into it. -/
theorem contains_effect (action : RosterAction) :
    (action.effect session roster).contains k = true ↔ Recorded (action.edits session) k ∨
      roster.contains k = true ∧ Kept (action.edits session) k := by
  cases action with
  | add key =>
    simp only [effect, edits]
    split
    · exact roster.contains_edited (.add key) k
    · exact roster.contains_unedited k
  | remove key => exact roster.contains_edited (.remove key) k
  | drain => exact roster.contains_edited .drain k
  | contains key | tryContains key | keys | size => exact roster.contains_unedited k

/-- What an action is answered depends on the set only, however it is enumerated. -/
theorem answer_eq_told (h : Enumerates ks fun k ↦ roster.contains k = true)
    (action : RosterAction) : action.answer session roster = action.told session ks := by
  have hcontains (key : Key) : roster.contains key = ks.contains key := by
    rw [Bool.eq_iff_iff, ← h.mem, List.contains_iff_mem]
  have hlist := Roster.toList_eq_sort h
  cases action with
  | add key => rfl
  | remove key | contains key | tryContains key => exact congrArg Outcome.flag (hcontains key)
  | drain | keys => exact congrArg Outcome.keys hlist
  | size =>
    apply congrArg Outcome.number
    rw [← Roster.length_toList, hlist, Key.length_sort]

end RosterAction

namespace Job

variable {r : RegistryRef} {job : Job} {instr : Instr Job}

/-- What a job is about to do to the keys of a registry. -/
def edit? (r : RegistryRef) : Job → Option Roster.Edit
  | allocating a (.enlist _ key) => if a.registry = r then some (.add key) else none
  | freeing f (.forget _) => if f.registry = r then some (.remove f.key) else none
  | tearingDown d (.drain _) => if d.registry = r then some .drain else none
  | editing c .act => if c.registry = r then c.action.edit? else none
  | _ => none

/-- A job does to the keys of a registry what it is about to do, and nothing else. -/
theorem keys_onRoster (hn : job.progress = .next instr) (roster : Roster) :
    (instr.onRoster r roster).keys = ((job.edit? r).elim roster roster.edited).keys := by
  cases job with
  | allocating a phase =>
    cases phase <;> cases hn <;> try rfl
    simp only [Instr.map, Instr.onRoster, edit?]
    split <;> rfl
  | freeing f phase =>
    cases phase <;> cases hn <;> try rfl
    simp only [Instr.map, Instr.onRoster, edit?]
    split <;> rfl
  | tearingDown d phase =>
    cases phase <;> cases hn <;> try rfl
    all_goals
      simp only [Instr.map, Instr.onRoster, edit?]
      split <;> rfl
  | editing c phase =>
    obtain ⟨q, session, action⟩ := c
    cases phase <;> try cases hn <;> rfl
    cases action <;> cases hn <;> simp only [Instr.map, Instr.onRoster, edit?, RosterCall.act] <;>
      split <;> rfl
  | attaching a phase =>
    cases phase with
    | start =>
      simp only [progress, Attachment.progress] at hn
      split at hn <;> cases hn <;> rfl
    | _ => cases hn <;> rfl
  | _ _ phase => cases phase <;> cases hn <;> rfl

end Job

/-! ### An action by itself -/

namespace RosterCall

variable {c : RosterCall} {supply : Supply} {who : CallRef} {t : TableRef} {job : Job}
  {s s' : Store} {a : Aftermath}

/-- An action that has its lock is answered from the roster, and does to it what it should. -/
private theorem reaches_acted (hr : s.Has (.registry c.registry))
    (h : Job.Reaches supply who t c.registry job s (.editing c .act) a s')
    (hown : ∀ key, c.action = .add key → key.session = c.session) :
    ∃ s'', Job.Reaches supply who t c.registry job s
      (.editing c (.unlock (c.action.answer c.session a.roster)))
      (a.withRoster (c.action.effect c.session a.roster)) s'' := by
  obtain ⟨r, session, action⟩ := c
  cases action with
  | add key =>
    have hkey : key.session = session := hown key rfl
    obtain ⟨_, h⟩ := h.add rfl hr
    simp only [RosterAction.answer, RosterAction.effect, hkey, if_true]
    exact ⟨_, h⟩
  | remove key => exact h.remove rfl hr
  | drain => exact h.drain rfl hr
  | contains key | tryContains key | keys | size => exact ⟨_, h.readRoster rfl hr⟩

/-- What an action on a roster leaves behind. -/
def answered (c : RosterCall) (t : TableRef) (s : Store) : Aftermath :=
  (s.untouched t c.registry).withRoster (c.action.effect c.session (s.rosterOf c.registry))

/-- An action that has taken its lock gives it back with its answer. -/
private theorem reaches_ended (hr : s.Has (.registry c.registry))
    (hlr : s.lockOf (.registry c.registry) = .free)
    (hown : ∀ key, c.action = .add key → key.session = c.session)
    (h : Job.Reaches supply who t c.registry job s (.editing c .act)
      ((s.untouched t c.registry).withLock (.registry c.registry) (.exclusive who)) s') :
    ∃ s'', Job.Reaches supply who t c.registry job s
      (.editing c (.ended (c.action.answer c.session (s.rosterOf c.registry)))) (c.answered t s)
      s'' := by
  obtain ⟨_, h⟩ := reaches_acted hr h hown
  obtain ⟨_, h⟩ := h.release rfl (h.2.has_registry.mpr hr) (by simp)
  exact ⟨_, h.of_eq (Aftermath.withLock_withLock_of_eq (a := c.answered t s) hlr.symm)⟩

variable (supply who t) in
/-- An action on a registry that nobody has is answered. -/
private theorem reaches_answered (hr : s.Has (.registry c.registry))
    (hlr : s.lockOf (.registry c.registry) = .free) :
    ∃ s', Job.Reaches supply who t c.registry (.editing c c.start) s
      (.editing c (.ended (c.action.answer c.session (s.rosterOf c.registry)))) (c.answered t s)
      s' := by
  have h := Job.Reaches.rest supply who t c.registry (.editing c c.start) s
  obtain ⟨r, session, action⟩ := c
  cases action with
  | add key =>
    by_cases hkey : key.session = session
    · have hstart : start ⟨r, session, .add key⟩ = .lock := if_pos hkey
      obtain ⟨_, h⟩ := h.acquire (by rw [hstart]; rfl) hr hlr
      apply reaches_ended hr hlr _ h
      rintro _ ⟨⟩
      exact hkey
    · simp only [start, answered, RosterAction.answer, RosterAction.effect, hkey, if_false] at h ⊢
      exact ⟨_, h⟩
  | tryContains key =>
    obtain ⟨_, h⟩ := h.tryAcquire rfl hr hlr
    exact reaches_ended hr hlr (by simp) h
  | remove key | contains key | drain | keys | size =>
    obtain ⟨_, h⟩ := h.acquire rfl hr hlr
    exact reaches_ended hr hlr (by simp) h

end RosterCall

namespace Service

variable {limits : List Limits} {supply : Supply} {s s' u : Service} {action : Action} {h : History}
  {r : RegistryRef} {k : Key} {ks : List Key}

open Roster (Recorded Kept)

/-- What a history does to the keys of a registry, in order. -/
def edits (s : Service) (r : RegistryRef) (h : History) : List Roster.Edit :=
  s.gathered (fun _ job ↦ job.edit? r) h

/-- What an action leaves of a roster, and what it brings into it. -/
private theorem contains_of_does (hd : s.Does supply action s') (r : RegistryRef) (k : Key) :
    (s'.store.rosterOf r).contains k = true ↔
      Recorded (s.ofStep (fun _ job ↦ job.edit? r) action).toList k ∨
        (s.store.rosterOf r).contains k = true ∧
          Kept (s.ofStep (fun _ job ↦ job.edit? r) action).toList k := by
  obtain ⟨i, job, instr, next, rfl, hj, hn, hr, -⟩ | hne := hd.step_or
  · have hkeys := Job.keys_onRoster (r := r) hn (s.store.rosterOf r)
    rw [← (Instr.changes_of_run hr).roster] at hkeys
    rw [ofStep_step hj, Roster.contains, hkeys]
    cases job.edit? r with
    | none => exact (s.store.rosterOf r).contains_unedited k
    | some e => exact (s.store.rosterOf r).contains_edited e k
  · rw [(hd.views_kept hne).2, ofStep_of_ne hne]
    exact (s.store.rosterOf r).contains_unedited k

/-- What a history leaves of a roster, and what it brings into it. -/
theorem contains_of_run (hr : s.run? h = some s') (r : RegistryRef) (k : Key) :
    (s'.store.rosterOf r).contains k = true ↔ Recorded (s.edits r h) k ∨
      (s.store.rosterOf r).contains k = true ∧ Kept (s.edits r h) k := by
  induction h generalizing s with
  | nil =>
    cases hr
    exact Roster.contains_unedited _ k
  | cons e h ih =>
    obtain ⟨-, u, hact, hr⟩ := run?_cons_eq_some.mp hr
    rw [edits, gathered_cons hact, ih hr, contains_of_does (does_of_act? hact),
      Roster.recorded_append, Roster.kept_append, edits]
    tauto

/-- From the beginning, a roster holds what has been recorded. -/
theorem contains_iff_recorded (hr : (withTables limits).run? h = some s) (r : RegistryRef)
    (k : Key) :
    (s.store.rosterOf r).contains k = true ↔ Recorded ((withTables limits).edits r h) k := by
  rw [contains_of_run hr]
  simp [withTables, Store.withTables, Store.rosterOf, Roster.contains]

/-! ### A sorted set -/

/-- How a registry behaves that holds the set that some edits leave, when its keys are enumerated as
`ks`. -/
structure ListsAs (s : Service) (r : RegistryRef) (es : List Roster.Edit) (ks : List Key) :
    Prop where
  /-- Sorting lists what has been added and not since removed or drained. -/
  mem : ∀ k, k ∈ Key.sort ks ↔ Recorded es k
  ordered : (Key.sort ks).Pairwise fun a b ↦ compare a b = .lt
  /-- Every action is answered so when nobody has the registry, and does to the set what it should;
  to drain it empties it, and to list it leaves it as it was. -/
  answers : ∀ supply action, s.store.lock? (.registry r) = some .free → ∃ s',
    s.Completes supply (.roster r action) (action.told (s.store.sessionOf r) ks) s' ∧
    s'.store.rosterOf r = action.effect (s.store.sessionOf r) (s.store.rosterOf r) ∧
    ∀ k, (s'.store.rosterOf r).contains k = true ↔
      Recorded (es ++ action.edits (s.store.sessionOf r)) k
  /-- A teardown that has its locks goes through the keys in this order, whatever others do. -/
  swept : ∀ i d h s' phase now w, d.registry = r → s.job? i = some (.tearingDown d .close) →
    s.run? h = some s' → s'.job? i = some (.tearingDown d phase) → phase.sweep? = some (now, w) →
    w.passed.reverse ++ now ++ w.todo = Key.sort ks
  /-- The numbers of the buffers of a session ascend, too, and are as many as there are keys. -/
  numbers : ((Key.sort ks).map Key.buffer).Pairwise (fun a b ↦ compare a b = .lt) ∧
    ((Key.sort ks).map Key.buffer).length = ks.length

/-- An action on a registry that nobody has comes to its answer. -/
private theorem completes_roster (supply : Supply) (action : RosterAction)
    (hlr : s.store.lock? (.registry r) = some .free) : ∃ s', s.Completes supply (.roster r action)
      (action.answer (s.store.sessionOf r) (s.store.rosterOf r)) s' ∧
      s'.store.rosterOf r = action.effect (s.store.sessionOf r) (s.store.rosterOf r) := by
  obtain ⟨hr, hlr⟩ := Store.has_of_lock? hlr
  obtain ⟨_, h⟩ := RosterCall.reaches_answered supply s.calls.size 0
    (c := ⟨r, s.store.sessionOf r, action⟩) hr hlr
  obtain ⟨s', hc, hbecomes⟩ :=
    completes_of_reaches rfl (Job.ofRequest?_eq_some.mpr (.roster hr)) h rfl
  exact ⟨s', hc, hbecomes.roster_self⟩

/-- However the keys are enumerated that have been recorded, the registry behaves so. -/
private theorem Reachable.listsAs (hs : Reachable limits s) {es : List Roster.Edit}
    (hrecorded : ∀ k, (s.store.rosterOf r).contains k = true ↔ Recorded es k)
    (hks : Enumerates ks (Recorded es)) : s.ListsAs r es ks := by
  have hset : Enumerates ks fun k ↦ (s.store.rosterOf r).contains k = true :=
    ⟨hks.nodup, fun k ↦ (hks.mem k).trans (hrecorded k).symm⟩
  constructor
  case mem => exact fun k ↦ Key.mem_sort.trans (hks.mem k)
  case ordered => exact Key.ordered_sort hks.nodup
  case answers =>
    intro supply action hlr
    obtain ⟨s', hc, hroster⟩ := completes_roster supply action hlr
    rw [RosterAction.answer_eq_told hset] at hc
    refine ⟨s', hc, hroster, fun k ↦ ?_⟩
    rw [hroster, RosterAction.contains_effect, hrecorded, Roster.recorded_append, or_comm]
  case swept =>
    rintro i d h s' phase now w rfl hj hrun hphase hw
    obtain ⟨_, hlast, hf⟩ := follows_of_close hs hrun hj
    cases hphase.symm.trans hlast
    rw [(hf.finds hw).1.keys]
    exact Roster.toList_eq_sort hset
  case numbers =>
    constructor
    · apply Key.ordered_buffers (Key.ordered_sort hks.nodup)
      exact fun k hk ↦ hs.kin.listed ((hset.mem k).mp (Key.mem_sort.mp hk))
    · rw [List.length_map, Key.length_sort]

/-- A registry is a set of keys, and lists it in ascending order, whatever has been done to it and
by whom: however what has been added and not since removed or drained is enumerated, sorting it
gives all answers of the registry, and the order in which a teardown goes through it. So two
histories that leave the same set give the same answers and the same order. -/
theorem registry_is_a_sorted_set (hr : (withTables limits).run? h = some s) (r : RegistryRef) :
    Enumerates (s.store.rosterOf r).toList (Recorded ((withTables limits).edits r h)) ∧
    (∀ ks, Enumerates ks (Recorded ((withTables limits).edits r h)) →
      s.ListsAs r ((withTables limits).edits r h) ks) ∧
    ∀ limits' h' s' r', (withTables limits').run? h' = some s' →
      (∀ k, Recorded ((withTables limits').edits r' h') k ↔
        Recorded ((withTables limits).edits r h) k) →
      (s'.store.rosterOf r').toList = (s.store.rosterOf r).toList ∧
      ∀ ks, Enumerates ks (Recorded ((withTables limits).edits r h)) →
        s'.ListsAs r' ((withTables limits').edits r' h') ks := by
  have hset := contains_iff_recorded hr r
  refine ⟨⟨Roster.nodup_toList _, fun k ↦ Roster.mem_toList.trans (hset k)⟩,
    fun ks hks ↦ Reachable.listsAs ⟨h, hr⟩ hset hks, ?_⟩
  intro limits' h' s' r' hr' hsame
  have hset' := contains_iff_recorded hr' r'
  constructor
  · apply Key.eq_of_ascending (Roster.ordered_toList _) (Roster.ordered_toList _)
    intro k
    rw [Roster.mem_toList, Roster.mem_toList, hset, hset', hsame]
  · intro ks hks
    exact Reachable.listsAs ⟨h', hr'⟩ hset' ⟨hks.nodup, fun k ↦ (hks.mem k).trans (hsame k).symm⟩

/-- Three keys are added to a registry, and one of them is removed. -/
def addedAndRemoved : History :=
  History.call (.attach ⟨⟨7⟩, .alone 1⟩) 0 1 ++
    History.call (.roster 0 (.add ⟨⟨7⟩, ⟨9⟩⟩)) 1 3 ++
    History.call (.roster 0 (.add ⟨⟨7⟩, ⟨2⟩⟩)) 2 3 ++
    History.call (.roster 0 (.add ⟨⟨7⟩, ⟨5⟩⟩)) 3 3 ++
    History.call (.roster 0 (.remove ⟨⟨7⟩, ⟨9⟩⟩)) 4 3

/-- A buffer is allocated, its registry is drained, and two keys are added. -/
def drainedAndAdded : History :=
  History.allocated ⟨7⟩ 4 4 ++ History.call (.roster 0 .drain) 2 3 ++
    History.call (.roster 0 (.add ⟨⟨7⟩, ⟨5⟩⟩)) 3 3 ++
    History.call (.roster 0 (.add ⟨⟨7⟩, ⟨2⟩⟩)) 4 3

/-- Two histories leave the same two keys, which both list in the same order. -/
theorem listed_alike : ∃ s u s' u', (withTables [{}]).run? addedAndRemoved = some s ∧
    (withTables [{}]).run? drainedAndAdded = some u ∧
    Enumerates [⟨⟨7⟩, ⟨5⟩⟩, ⟨⟨7⟩, ⟨2⟩⟩] (Recorded ((withTables [{}]).edits 0 addedAndRemoved)) ∧
    s.Completes .addressable (.roster 0 .keys) (.keys [⟨⟨7⟩, ⟨2⟩⟩, ⟨⟨7⟩, ⟨5⟩⟩]) s' ∧
    u.Completes .addressable (.roster 0 .keys) (.keys [⟨⟨7⟩, ⟨2⟩⟩, ⟨⟨7⟩, ⟨5⟩⟩]) u' := by
  have hrun : ((withTables [{}]).run? addedAndRemoved).map (fun s ↦
      (s.store.lock? (.registry 0), (s.store.rosterOf 0).toList)) =
      some (some .free, [⟨⟨7⟩, ⟨2⟩⟩, ⟨⟨7⟩, ⟨5⟩⟩]) := by
    decide +kernel
  have hrun' : ((withTables [{}]).run? drainedAndAdded).map (fun u ↦ u.store.lock? (.registry 0)) =
      some (some .free) := by
    decide +kernel
  have hedits : (withTables [{}]).edits 0 addedAndRemoved =
      [.add ⟨⟨7⟩, ⟨9⟩⟩, .add ⟨⟨7⟩, ⟨2⟩⟩, .add ⟨⟨7⟩, ⟨5⟩⟩, .remove ⟨⟨7⟩, ⟨9⟩⟩] := by
    decide +kernel
  have hedits' : (withTables [{}]).edits 0 drainedAndAdded =
      [.add ⟨⟨7⟩, ⟨0⟩⟩, .drain, .add ⟨⟨7⟩, ⟨5⟩⟩, .add ⟨⟨7⟩, ⟨2⟩⟩] := by
    decide +kernel
  obtain ⟨s, hs, hrun⟩ := Option.map_eq_some_iff.mp hrun
  obtain ⟨u, hu, hlr'⟩ := Option.map_eq_some_iff.mp hrun'
  obtain ⟨hlr, hlist⟩ := Prod.mk.inj hrun
  have hks : Enumerates [⟨⟨7⟩, ⟨5⟩⟩, ⟨⟨7⟩, ⟨2⟩⟩]
      (Recorded ((withTables [{}]).edits 0 addedAndRemoved)) := by
    refine ⟨by decide, fun k ↦ ?_⟩
    rw [hedits]
    simp only [Roster.recorded_cons, Roster.not_recorded_nil, Kept]
    grind
  have hsame (k : Key) : Recorded ((withTables [{}]).edits 0 drainedAndAdded) k ↔
      Recorded ((withTables [{}]).edits 0 addedAndRemoved) k := by
    rw [← hks.mem, hedits']
    simp only [Roster.recorded_cons, Roster.not_recorded_nil, Kept]
    grind
  obtain ⟨henum, hlists, hothers⟩ := registry_is_a_sorted_set hs 0
  obtain ⟨-, hlists'⟩ := hothers [{}] drainedAndAdded u 0 hu hsame
  rw [hlist] at henum
  obtain ⟨s', hc, -⟩ := (hlists _ henum).answers .addressable .keys hlr
  obtain ⟨u', hc', -⟩ := (hlists' _ henum).answers .addressable .keys hlr'
  have hsort : Key.sort [⟨⟨7⟩, ⟨2⟩⟩, ⟨⟨7⟩, ⟨5⟩⟩] = [⟨⟨7⟩, ⟨2⟩⟩, ⟨⟨7⟩, ⟨5⟩⟩] :=
    Key.sort_eq (by decide) (by decide) fun _ ↦ Iff.rfl
  rw [RosterAction.told, hsort] at hc hc'
  exact ⟨s, u, s', u', hs, hu, hks, hc, hc'⟩

end Service

end SessionBuffers
