import SessionBuffers.Proofs.Aftermath
import SessionBuffers.Proofs.Listing
import SessionBuffers.Proofs.Matching
import SessionBuffers.Proofs.Sweeping

/-!
# What a teardown leaves behind

A teardown whose locks are free takes out of the index of its table what its roster lists, whatever
the two have to do with each other: listed keys that the table does not have are logged and passed
over. The loop goes through the list once (`Teardown.reaches_swept`), and what it makes of the
index, of the content and of the log is said for a whole list at once (`Aftermath.cleared`).
-/

namespace SessionBuffers

/-! ### Many keys at once -/

/-- A key that is not in a list changes nothing for the keys in it. -/
private theorem Index.getElem?_erase_of_mem {index : Index} {key k : Key} {keys : List Key}
    (hnot : key ∉ keys) (hk : k ∈ keys) : (index.erase key)[k]? = index[k]? := by
  rw [getElem?_erase, if_neg]
  rintro rfl
  exact hnot hk

private theorem Index.contains_erase_of_mem {index : Index} {key k : Key} {keys : List Key}
    (hnot : key ∉ keys) (hk : k ∈ keys) : (index.erase key).contains k = index.contains k := by
  rw [Bool.eq_iff_iff, contains_iff, contains_iff, getElem?_erase_of_mem hnot hk]

/-- What is left when the buffers under some keys are taken out and given up, and the keys that lead
nowhere are logged. -/
@[simps -fullyApplied] def Aftermath.cleared (a : Aftermath) (keys : List Key) : Aftermath :=
  { a with
    index := a.index.without keys
    content := fun b ↦ if ∃ k ∈ keys, a.index[k]? = some b then .gone else a.content b
    logs := a.logs ++ (keys.filter (!a.index.contains ·)).map .listedButMissing }

namespace Aftermath

variable {a : Aftermath} {key : Key} {keys : List Key} {b : StorageRef}

theorem cleared_nil (a : Aftermath) : a.cleared [] = a := by
  refine Aftermath.ext rfl rfl rfl rfl (funext fun b ↦ ?_) rfl rfl (by simp)
  simp

/-- The first key leads to a buffer. -/
theorem cleared_cons_of_some (hnot : key ∉ keys) (hb : a.index[key]? = some b) :
    ((a.withIndex (a.index.erase key)).withContent b .gone).cleared keys =
      a.cleared (key :: keys) := by
  ext1
  case index =>
    refine Std.ExtTreeMap.ext_getElem? fun k ↦ ?_
    simp only [cleared_index, withContent_index, withIndex_index, Index.getElem?_without,
      Index.getElem?_erase, List.mem_cons]
    grind
  case content =>
    funext c
    have hsame : (∃ k ∈ keys, (a.index.erase key)[k]? = some c) ↔
        ∃ k ∈ keys, a.index[k]? = some c :=
      exists_congr fun k ↦ and_congr_right fun hk ↦ by rw [Index.getElem?_erase_of_mem hnot hk]
    have hcons : (∃ k ∈ key :: keys, a.index[k]? = some c) ↔
        b = c ∨ ∃ k ∈ keys, a.index[k]? = some c := by simp [hb]
    simp only [cleared_content, withContent_index, withIndex_index, withContent_content,
      hsame, hcons]
    by_cases hc : b = c
    · simp [hc]
    · simp [hc, Function.update_of_ne (Ne.symm hc)]
  case logs =>
    have hsame : keys.filter (!(a.index.erase key).contains ·) =
        keys.filter (!a.index.contains ·) :=
      List.filter_congr fun k hk ↦ by rw [Index.contains_erase_of_mem hnot hk]
    simp only [cleared_logs, withContent_logs, withIndex_logs, withContent_index, withIndex_index,
      hsame]
    simp [Index.contains_iff.mpr ⟨b, hb⟩]
  all_goals rfl

/-- The first key leads nowhere. -/
theorem cleared_cons_of_none (hnone : a.index[key]? = none) :
    (a.logged (.listedButMissing key)).cleared keys = a.cleared (key :: keys) := by
  ext1
  case index =>
    refine Std.ExtTreeMap.ext_getElem? fun k ↦ ?_
    simp only [cleared_index, logged_index, Index.getElem?_without, List.mem_cons]
    grind
  case content =>
    funext c
    simp [hnone]
  case logs => simp [Index.not_contains_iff.mpr hnone]
  all_goals rfl

end Aftermath

namespace Teardown

variable {d : Teardown} {supply : Supply} {who : CallRef} {s s' : Store} {job : Job}
  {a : Aftermath} {w : Sweep} {key : Key} {b : StorageRef} {todo : List Key}

/-! ### The loop -/

/-- A sweep takes out the buffer under the key it is at. -/
private theorem reaches_taken (ht : s.Has (.table d.table))
    (h : Job.Reaches supply who d.table d.registry job s (.tearingDown d (.find key w)) a s')
    (hb : a.index[key]? = some b) (hhas : b < a.storages) (hfree : a.lock (.content b) = .free) :
    ∃ s'', Job.Reaches supply who d.table d.registry job s (.tearingDown d (.resume (w.take key)))
      ((a.withIndex (a.index.erase key)).withContent b .gone) s'' := by
  have h := h.readIndex rfl ht
  simp only [Function.comp_apply, hb] at h
  obtain ⟨_, h⟩ := h.acquire rfl (h.2.has_content.mpr hhas) hfree
  obtain ⟨_, h⟩ := h.erase rfl ht
  obtain ⟨_, h⟩ := h.dispose rfl hhas
  obtain ⟨_, h⟩ := h.release rfl (h.2.has_content.mpr hhas) (by simp)
  refine ⟨_, h.of_eq (Aftermath.ext rfl rfl rfl rfl rfl ?_ rfl rfl)⟩
  simp [← hfree]

/-- A sweep passes over a key that leads nowhere. -/
private theorem reaches_skipped (ht : s.Has (.table d.table))
    (h : Job.Reaches supply who d.table d.registry job s (.tearingDown d (.find key w)) a s')
    (hnone : a.index[key]? = none) :
    ∃ s'', Job.Reaches supply who d.table d.registry job s (.tearingDown d (.resume (w.skip key)))
      (a.logged (.listedButMissing key)) s'' := by
  have h := h.readIndex rfl ht
  simp only [Function.comp_apply, hnone] at h
  exact h.log rfl

/-- A sweep that finds all contents free comes to its end. -/
private theorem reaches_swept (ht : s.Has (.table d.table))
    (h : Job.Reaches supply who d.table d.registry job s (.tearingDown d (.resume w)) a s')
    (htodo : w.todo = todo) (hnodup : todo.Nodup)
    (hfree : ∀ k ∈ todo, ∀ b, a.index[k]? = some b →
      b < a.storages ∧ a.lock (.content b) = .free) :
    ∃ w' s'', w'.first = w.first ∧
      w'.released = w.released + (todo.filter a.index.contains).length ∧
      Job.Reaches supply who d.table d.registry job s (.tearingDown d (.unlockRegistry w'))
        (a.cleared todo) s'' := by
  induction todo generalizing w a s' with
  | nil =>
    rw [Phase.resume, htodo] at h
    exact ⟨w, s', rfl, rfl, h.of_eq a.cleared_nil.symm⟩
  | cons key todo ih =>
    rw [Phase.resume, htodo] at h
    obtain ⟨hnot, hnodup⟩ := List.nodup_cons.mp hnodup
    cases hk : a.index[key]? with
    | none =>
      obtain ⟨_, h⟩ := reaches_skipped ht h hk
      obtain ⟨w', s'', hfirst, hreleased, h⟩ := ih h rfl hnodup
        fun k hmem ↦ hfree k (List.mem_cons_of_mem _ hmem)
      refine ⟨w', s'', hfirst, ?_, h.of_eq (Aftermath.cleared_cons_of_none hk)⟩
      simpa [Sweep.skip, Index.not_contains_iff.mpr hk] using hreleased
    | some b =>
      obtain ⟨hhas, hlock⟩ := hfree key List.mem_cons_self b hk
      obtain ⟨_, h⟩ := reaches_taken ht h hk hhas hlock
      have hother (k : Key) (hmem : k ∈ todo) (c : StorageRef)
          (hc : (a.index.erase key)[k]? = some c) : a.index[k]? = some c :=
        (Index.getElem?_erase_of_mem hnot hmem).symm.trans hc
      obtain ⟨w', s'', hfirst, hreleased, h⟩ := ih h rfl hnodup fun k hmem c hc ↦
        hfree k (List.mem_cons_of_mem _ hmem) c (hother k hmem c hc)
      refine ⟨w', s'', hfirst, ?_, h.of_eq (Aftermath.cleared_cons_of_some hnot hk)⟩
      rw [hreleased, List.filter_cons_of_pos (Index.contains_iff.mpr ⟨b, hk⟩), List.length_cons]
      have hsame : todo.filter (a.index.erase key).contains = todo.filter a.index.contains :=
        List.filter_congr fun k hmem ↦ Index.contains_erase_of_mem hnot hmem
      simp only [Sweep.take, Aftermath.withContent_index, Aftermath.withIndex_index, hsame]
      omega

/-! ### The whole teardown -/

/-- What a teardown leaves behind. -/
def torn (d : Teardown) (s : Store) : Aftermath :=
  { s.untouched d.table d.registry with
    index := (s.indexOf d.table).without (d.listed s)
    roster := { closed := true }
    content := fun b ↦
      if ∃ k ∈ d.listed s, (s.indexOf d.table)[k]? = some b then .gone else s.contentOf b
    adds := fun
      | .buffersReclaimed => .ofNat (d.found s)
      | .sessionsClosed => if (s.rosterOf d.registry).closed then 0 else 1
      | _ => 0
    logs := ((d.listed s).filter (!(s.indexOf d.table).contains ·)).map .listedButMissing ++
      [.sessionTornDown d.session (d.found s)] }

variable (who) in
/-- What a teardown leaves behind when it has counted what it has taken out. -/
theorem reaches_torn (ht : s.Has (.table d.table)) (hr : s.Has (.registry d.registry))
    (hlt : s.lockOf (.table d.table) = .free) (hlr : s.lockOf (.registry d.registry) = .free)
    (hfree : ∀ k ∈ d.listed s, ∀ b, (s.indexOf d.table)[k]? = some b →
      s.Has (.content b) ∧ s.lockOf (.content b) = .free) :
    ∃ s', Job.Reaches supply who d.table d.registry (.tearingDown d .lockRegistry) s
      (.tearingDown d (.ended (.number (d.found s)))) (d.torn s) s' := by
  have h := Job.Reaches.rest supply who d.table d.registry (.tearingDown d .lockRegistry) s
  obtain ⟨_, h⟩ := h.acquire rfl hr hlr
  obtain ⟨_, h⟩ := h.acquire rfl (h.2.has_table.mpr ht) (by simpa using hlt)
  obtain ⟨_, h⟩ := h.close rfl hr
  obtain ⟨_, h⟩ := h.drain rfl hr
  obtain ⟨w, _, hfirst, hreleased, h⟩ := reaches_swept ht h rfl (Roster.nodup_toList _)
    fun k hk b hb ↦ by simpa [Store.has_content] using hfree k hk b hb
  obtain ⟨_, h⟩ := h.release rfl (h.2.has_registry.mpr hr) (by simp)
  obtain ⟨_, h⟩ := h.release rfl (h.2.has_table.mpr ht) (by simp)
  obtain ⟨_, h⟩ := h.count rfl ht
  have hfound : w.released = d.found s := hreleased.trans (Nat.zero_add _)
  have hclosed : w.first = !(s.rosterOf d.registry).closed := hfirst
  have hlock : Function.update (Function.update (Function.update (Function.update s.lockOf
      (.registry d.registry) (.exclusive who)) (.table d.table) (.exclusive who))
      (.registry d.registry) .free) (.table d.table) .free = s.lockOf := by
    funext name
    simp only [Function.update_apply]
    grind
  cases hc : (s.rosterOf d.registry).closed with
  | false =>
    simp only [hclosed, hc, Bool.not_false, if_true] at h
    obtain ⟨_, h⟩ := h.count rfl ht
    obtain ⟨_, h⟩ := h.log rfl
    rw [hfound] at h
    refine ⟨_, h.of_eq (Aftermath.ext rfl rfl rfl rfl rfl hlock (funext fun which ↦ ?_) rfl)⟩
    cases which <;> simp [torn, hc]
  | true =>
    simp only [hclosed, hc, Bool.not_true, Bool.false_eq_true, if_false] at h
    obtain ⟨_, h⟩ := h.log rfl
    rw [hfound] at h
    refine ⟨_, h.of_eq (Aftermath.ext rfl rfl rfl rfl rfl hlock (funext fun which ↦ ?_) rfl)⟩
    cases which <;> simp [torn, hc]

end Teardown

namespace Service

variable {limits : List Limits} {supply : Supply} {s s' : Service} {t : TableRef} {k : Key}
  {b : StorageRef} {d : Teardown}

/-! ### Whose buffers there are -/

/-- An allocation that has put its handle into the index works where the handle belongs. -/
private theorem of_kept? {job : Job} {a : Allocation} {g : Handle} {store : Store}
    (hk : job.kept? = some (a, g)) (hp : job.Proper) (hn : job.Named store) :
    job.place? = some (a.table, a.registry) ∧ store.sessionOf a.registry = g.key.session := by
  unfold Job.kept? at hk
  split at hk <;> cases hk
  case h_7 =>
    obtain ⟨_, hg, hsession⟩ | ⟨_, hrefused⟩ := hp
    · cases hg
      exact ⟨rfl, (Eq.trans hsession hn).symm⟩
    · cases hrefused
  all_goals exact ⟨rfl, (Eq.trans hp hn).symm⟩

/-- When the registry of a teardown is free, every buffer of its session is listed, if the session
has had no other registry, and this one has been used with one table and has not been edited. -/
private theorem Reachable.mem_listed (hs : Reachable limits s)
    (hlr : s.store.lockOf (.registry d.registry) = .free)
    (honly : ∀ q, s.store.Has (.registry q) → s.store.sessionOf q = d.session → q = d.registry)
    (hu : s.UsedWith d.table d.registry) (hk : k.session = d.session)
    (hin : (s.store.indexOf t)[k]? = some b) : t = d.table ∧ k ∈ d.listed s.store := by
  obtain ⟨a, hkeeps, rfl⟩ := hs.sound.kept hin
  obtain ⟨i, call, hc, hkept⟩ := id hkeeps
  have hj : s.job? i = some call.job := job?_eq_some.mpr ⟨call, hc, rfl⟩
  obtain ⟨hplace, hsession⟩ := of_kept? hkept (hs.sound.proper hc) (hs.kin.named hj).1
  have hregistry := honly _ (hs.scoped.has_place hj hplace) (hsession.trans hk)
  have htable : a.table = d.table := (hu i _ hj).1 _ (hregistry ▸ hplace)
  rw [htable] at hin
  rw [← hregistry] at hu
  refine ⟨htable, Roster.mem_toList.mpr ?_⟩
  obtain hlisted | ⟨j, job, hjob, hadds⟩ := hs.lists hu hkeeps hin
  · rwa [← hregistry]
  · -- Whoever has still to record the key would hold the registry.
    rw [hregistry] at hadds
    have hholds := (hs.locked.holds_iff _ _ _).mpr
      (hs.locked.holds_of_held hjob (by simp) (Job.held_of_adds hadds))
    rw [hlr] at hholds
    exact absurd hholds Lock.not_holds_free

/-- What a teardown comes to by itself in any state where its locks are free, whatever its roster
and its index have to do with each other: it takes out of the index what the roster lists, and
nothing else, gives up what was there, so that no byte of it is left, and tells, counts and logs
just that; keys that are missing are logged in ascending order. If the session has had no other
registry, and this one has been used with one table only and has not been edited, no table has a
buffer of the session left. -/
theorem teardown_takes_out_what_is_listed (supply : Supply) (d : Teardown)
    (hd : d.session = s.store.sessionOf d.registry)
    (hlt : s.store.lock? (.table d.table) = some .free)
    (hlr : s.store.lock? (.registry d.registry) = some .free)
    (hfree : ∀ k ∈ d.listed s.store, ∀ b, (s.store.indexOf d.table)[k]? = some b →
      s.store.lock? (.content b) = some .free) :
    (d.listed s.store).Pairwise (fun a b ↦ compare a b = .lt) ∧
    ∃ s', s.Completes supply (.teardown d.table d.registry) (.number (d.found s.store)) s' ∧
      s.store.Becomes s.calls.size d.table d.registry (d.torn s.store) s'.store ∧
      (∀ k ∈ d.listed s.store, ∀ b, (s.store.indexOf d.table)[k]? = some b →
        (s'.store.contentOf b).Emptied) ∧
      ∀ limits, Reachable limits s →
        (∀ q, s.store.Has (.registry q) → s.store.sessionOf q = d.session → q = d.registry) →
        s.UsedWith d.table d.registry → ∀ t, (s'.store.indexOf t).ofSession d.session = [] := by
  obtain ⟨ht, hlt⟩ := Store.has_of_lock? hlt
  obtain ⟨hr, hlr⟩ := Store.has_of_lock? hlr
  obtain ⟨_, h⟩ := Teardown.reaches_torn s.calls.size ht hr hlt hlr
    fun k hk b hb ↦ Store.has_of_lock? (hfree k hk b hb)
  have hjob := Job.ofRequest?_eq_some.mpr (Job.Fresh.teardown ht hr)
  rw [← hd] at hjob
  obtain ⟨s', hc, hbecomes⟩ := completes_of_reaches rfl hjob h rfl
  refine ⟨Std.ExtTreeSet.ordered_toList, s', hc, hbecomes, fun k hk b hb ↦ ?_,
    fun limits hs honly hu t ↦ ?_⟩
  · rw [hbecomes.content]
    exact Content.emptied_iff.mpr (if_pos ⟨k, hk, hb⟩)
  rw [Index.ofSession_eq, List.filter_eq_nil_iff]
  intro k hmem hsession
  obtain ⟨b, hb⟩ := Index.contains_iff.mp (Std.ExtTreeMap.contains_iff_mem.mpr
    (Std.ExtTreeMap.mem_keys.mp hmem))
  have hlisted {u : TableRef} (hin : (s.store.indexOf u)[k]? = some b) :=
    hs.mem_listed hlr honly hu (by simpa using hsession) hin
  rw [hbecomes.index] at hb
  split at hb
  · next htable =>
    have hnone : (s.store.indexOf d.table)[k]? = some b ∧ k ∉ d.listed s.store := by
      simpa [Teardown.torn, Index.getElem?_without, and_comm] using hb
    exact hnone.2 (hlisted hnone.1).2
  · next htable => exact htable (hlisted hb).1

/-- Two buffers are allocated with the only registry of their session. -/
def twoAllocated : History :=
  History.allocated ⟨7⟩ 4 4 ++ History.call (.allocate 0 0 4 4) 2 14

/-- Besides, a key that no table has is added to the roster. -/
def twoOfThreeListed : History :=
  twoAllocated ++ History.call (.roster 0 (.add ⟨⟨7⟩, ⟨9⟩⟩)) 3 3

/-- A teardown takes out both buffers, and no table has one of their session left; with the third
key listed it logs that this one is missing. -/
theorem torn_down_with_a_key_missing : ∃ s u s' u',
    (withTables [{}]).run? twoAllocated = some s ∧
    (withTables [{}]).run? twoOfThreeListed = some u ∧
    s.Completes .addressable (.teardown 0 0) (.number 2) s' ∧
    (∀ t, (s'.store.indexOf t).ofSession ⟨7⟩ = []) ∧
    u.Completes .addressable (.teardown 0 0) (.number 2) u' ∧
    u'.store.log.toList = u.store.log.toList ++
      [(4, .listedButMissing ⟨⟨7⟩, ⟨9⟩⟩), (4, .sessionTornDown ⟨7⟩ 2)] := by
  have hrun (vain : List UInt64) (h : History)
      (hv : vain = [] ∧ h = twoAllocated ∨ vain = [9] ∧ h = twoOfThreeListed) :
      ((withTables [{}]).run? h).map (fun s ↦
        ([s.store.lock? (.table 0), s.store.lock? (.registry 0), s.store.lock? (.content 0),
            s.store.lock? (.content 1)], s.store.sessionOf 0, (s.store.rosterOf 0).toList,
          [0, 1, 9].map fun n ↦ (s.store.indexOf 0)[(⟨⟨7⟩, ⟨n⟩⟩ : Key)]?)) =
        some ([some .free, some .free, some .free, some .free], ⟨7⟩,
          ([0, 1] ++ vain).map (⟨⟨7⟩, ⟨·⟩⟩), [some 0, some 1, none]) := by
    obtain ⟨rfl, rfl⟩ | ⟨rfl, rfl⟩ := hv <;> decide +kernel
  have hcalls : (((withTables [{}]).run? twoAllocated).map fun s ↦
      (s.store.registries.size, s.calls.toList.map Call.job)) =
      some (1, [.attaching ⟨⟨7⟩, .alone 1⟩ (.ended (.registry 0)),
        .allocating ⟨0, 0, ⟨7⟩, 4, 4⟩ (.ended (.handle ⟨⟨⟨7⟩, ⟨0⟩⟩, 0⟩)),
        .allocating ⟨0, 0, ⟨7⟩, 4, 4⟩ (.ended (.handle ⟨⟨⟨7⟩, ⟨1⟩⟩, 1⟩))]) := by
    decide +kernel
  have hsize : ((withTables [{}]).run? twoOfThreeListed).map (·.calls.size) = some 4 := by
    decide +kernel
  obtain ⟨s, hs, hs'⟩ := Option.map_eq_some_iff.mp (hrun _ _ (.inl ⟨rfl, rfl⟩))
  obtain ⟨u, hu, hu'⟩ := Option.map_eq_some_iff.mp (hrun _ _ (.inr ⟨rfl, rfl⟩))
  rw [hs, Option.map_some, Option.some.injEq, Prod.mk.injEq] at hcalls
  rw [hu, Option.map_some, Option.some.injEq] at hsize
  simp only [Prod.mk.injEq, List.map_cons, List.map_nil, List.cons.injEq, List.append_nil,
    List.cons_append, List.nil_append, and_true] at hs' hu'
  obtain ⟨⟨hlt, hlr, hlb, hlc⟩, hsession, hroster, hfirst, hsecond, -⟩ := hs'
  obtain ⟨⟨hlt', hlr', hlb', hlc'⟩, hsession', hroster', hfirst', hsecond', hnone⟩ := hu'
  obtain ⟨-, s', hc, -, -, hempty⟩ := teardown_takes_out_what_is_listed .addressable ⟨0, 0, ⟨7⟩⟩
    hsession.symm hlt hlr (by
      intro k hk b hb
      simp only [Teardown.listed, hroster, List.mem_cons, List.not_mem_nil, or_false] at hk
      obtain rfl | rfl := hk
      · rwa [← Option.some.inj (hfirst.symm.trans hb)]
      · rwa [← Option.some.inj (hsecond.symm.trans hb)])
  obtain ⟨-, u', hc', hbecomes, -⟩ := teardown_takes_out_what_is_listed .addressable ⟨0, 0, ⟨7⟩⟩
    hsession'.symm hlt' hlr' (by
      intro k hk b hb
      simp only [Teardown.listed, hroster', List.mem_cons, List.not_mem_nil, or_false] at hk
      obtain rfl | rfl | rfl := hk
      · rwa [← Option.some.inj (hfirst'.symm.trans hb)]
      · rwa [← Option.some.inj (hsecond'.symm.trans hb)]
      · cases hnone.symm.trans hb)
  have hfound : Teardown.found ⟨0, 0, ⟨7⟩⟩ s.store = 2 := by
    simp [Teardown.found, Teardown.listed, hroster, Index.contains_iff.mpr ⟨_, hfirst⟩,
      Index.contains_iff.mpr ⟨_, hsecond⟩]
  have hfound' : Teardown.found ⟨0, 0, ⟨7⟩⟩ u.store = 2 := by
    simp [Teardown.found, Teardown.listed, hroster', Index.contains_iff.mpr ⟨_, hfirst'⟩,
      Index.contains_iff.mpr ⟨_, hsecond'⟩, Index.not_contains_iff.mpr hnone]
  refine ⟨s, u, s', u', hs, hu, hfound ▸ hc,
    hempty [{}] ⟨_, hs⟩ (fun q hq _ ↦ ?_) fun i job hj ↦ ?_, hfound' ▸ hc', ?_⟩
  · exact Nat.lt_one_iff.mp (hcalls.1 ▸ Store.has_registry.mp hq)
  · obtain ⟨call, hcall, rfl⟩ := job?_eq_some.mp hj
    have hmem := List.mem_map_of_mem (f := Call.job)
      (Array.mem_toList_iff.mpr (Array.mem_of_getElem? hcall))
    simp only [hcalls.2, List.mem_cons, List.not_mem_nil, or_false] at hmem
    obtain hjob | hjob | hjob := hmem <;> simp [hjob, Job.place?, Job.edits]
  · rw [hbecomes.log, hsize]
    simp [Teardown.torn, hfound', Teardown.listed, hroster', Index.contains_iff.mpr ⟨_, hfirst'⟩,
      Index.contains_iff.mpr ⟨_, hsecond'⟩, Index.not_contains_iff.mpr hnone]

end Service

end SessionBuffers
