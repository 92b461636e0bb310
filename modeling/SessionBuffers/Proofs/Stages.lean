import SessionBuffers.Proofs.Disposal

/-!
# The stages of a buffer

A buffer that an allocation has handed out goes through three stages in order: it is in the index of
its table; it has been taken out by a call that is about to release it; it has been released and
nothing is left of it (`Reachable.isAt`, `IsAt.le`). An access through a handle is given a guard
exactly when it finds the buffer at the first of them.
-/

namespace SessionBuffers

/-- The stages of a buffer that has been handed out. -/
inductive Stage where
  /-- In the index of its table. -/
  | live
  /-- Taken out of the index, and about to be released. -/
  | leaving
  | dead
  deriving DecidableEq

/-- How many stages come before a stage. -/
def Stage.rank : Stage → Nat
  | live => 0
  | leaving => 1
  | dead => 2

/-- Stages are ordered as buffers go through them. -/
instance : LE Stage := ⟨fun x y ↦ x.rank ≤ y.rank⟩

/-- Where an access stands so many steps after it has been given content, live or not. -/
def Access.course (x : Access) (live : Bool) : Nat → Phase
  | 0 => .check
  | 1 => if live then .ended (.guard ⟨x.handle, x.mode⟩) else .unlockReleased
  | _ => .ended (if live then .guard ⟨x.handle, x.mode⟩ else .refused (.notFound x.handle.key))

namespace Service

variable {limits : List Limits} {supply : Supply} {s s' : Service} {action : Action} {k : History}
  {i : CallRef} {a : Allocation} {t : TableRef} {h : Handle} {x y : Stage}

/-- Whether a call has taken a buffer out of the index of a table and has still to release it. -/
def Removes (s : Service) (i : CallRef) (t : TableRef) (h : Handle) : Prop :=
  ∃ call, s.calls[i]? = some call ∧ call.job.erased? = some (t, h)

/-- Whether a buffer of a table is at a stage. -/
def IsAt (s : Service) (t : TableRef) (h : Handle) : Stage → Prop
  | .live => (s.store.indexOf t)[h.key]? = some h.storage ∧
      (s.store.contentOf h.storage).released = false ∧
      ∀ (u : TableRef) (key : Key), (s.store.indexOf u)[key]? = some h.storage → u = t ∧ key = h.key
  | .leaving => (∀ (u : TableRef) (key : Key), (s.store.indexOf u)[key]? ≠ some h.storage) ∧
      (s.store.contentOf h.storage).released = false ∧
      ∃ i, s.Removes i t h ∧ s.Holds i (.content h.storage) .exclusive ∧
        ∀ (j : CallRef) (u : TableRef) (g : Handle), s.Removes j u g → g.storage = h.storage → j = i
  | .dead => (∀ (u : TableRef) (key : Key), (s.store.indexOf u)[key]? ≠ some h.storage) ∧
      s.store.Has (.content h.storage) ∧ (s.store.contentOf h.storage).Emptied

/-! ### One stage at a time -/

theorem IsAt.unique (hx : s.IsAt t h x) (hy : s.IsAt t h y) : x = y := by
  cases x <;> cases y
  case live.live | leaving.leaving | dead.dead => rfl
  case live.leaving | live.dead => exact absurd hx.1 (hy.1 t h.key)
  case leaving.live | dead.live => exact absurd hy.1 (hx.1 t h.key)
  case leaving.dead =>
    cases hx.2.1.symm.trans hy.2.2.released
  case dead.leaving =>
    cases hy.2.1.symm.trans hx.2.2.released

/-- Who has taken a buffer out of its index holds the content alone. -/
private theorem Sound.holds_of_removes (hs : s.Sound) (hi : s.Removes i t h) :
    s.Holds i (.content h.storage) .exclusive := by
  obtain ⟨call, hc, he⟩ := hi
  have ho := Job.owned?_of_erased? he
  refine ⟨call, hc, ?_⟩
  have hdropped : call.dropped = false := by
    cases hd : call.dropped with
    | false => rfl
    | true =>
      obtain ⟨o, hended⟩ := Option.isSome_iff_exists.mp (hs.locked.ended i call hc hd)
      rw [Job.owned?_of_outcome? hended] at ho
      cases ho
  obtain hheld | ⟨c, hjob⟩ := Job.held_of_owned? ho
  · simpa [Call.held, hdropped] using hheld
  · rw [hjob] at he
    cases he

/-- Every buffer that has been handed out is at some stage. -/
theorem Reachable.isAt (hr : Reachable limits s) (hk : s.Keeps a h) :
    ∃ x, s.IsAt a.table h x := by
  have hs := hr.sound
  obtain ⟨t, key, hin⟩ | ⟨i, call, hc, ho⟩ | hreleased := hr.disposed.placed hk
  · obtain ⟨c, hkept, rfl⟩ := hs.kept hin
    obtain ⟨rfl, he⟩ := hs.keeps_unique hk hkept rfl
    obtain rfl : h.key = key := congrArg Handle.key he
    exact ⟨.live, hin, hs.live hin, fun u key' hin' ↦ hs.distinct hin' hin⟩
  · obtain ⟨hlive, hnot⟩ := hs.owned hc ho
    obtain ⟨t, key, he⟩ | ⟨c, hmade⟩ := Job.erased?_or_made? ho
    · obtain ⟨c, hkept, rfl⟩ := hr.disposed.erased hc he
      obtain ⟨rfl, hsame⟩ := hs.keeps_unique hk hkept rfl
      rw [← hsame] at he
      refine ⟨.leaving, hnot, hlive, i, ⟨call, hc, he⟩, hs.holds_of_removes ⟨call, hc, he⟩, ?_⟩
      rintro j u g ⟨other, hj, hg⟩ hsame
      exact hs.owner_unique hj hc (hsame ▸ Job.owned?_of_erased? hg) ho
    · -- Who has made it and still owns it has not handed it out.
      obtain ⟨j, maker, hj, hkept⟩ := hk
      obtain rfl := hs.maker_unique hj hc (Job.made?_of_kept? hkept) hmade
      cases hc.symm.trans hj
      rw [Job.kept?_of_owned? ho] at hkept
      cases hkept
  · obtain ⟨j, maker, hj, hkept⟩ := hk
    have hhas := hs.made hj (Job.made?_of_kept? hkept)
    refine ⟨.dead, fun u key hin ↦ ?_, hhas, (hr.disposed.released hhas hreleased).1⟩
    rw [hs.live hin] at hreleased
    cases hreleased

/-! ### From stage to stage -/

/-- A buffer that has left the indexes never comes back. -/
theorem Sound.unindexed_kept (hs : s.Sound) (hd : s.Does supply action s')
    (hk : s.Keeps a h)
    (hnot : ∀ (u : TableRef) (key : Key), (s.store.indexOf u)[key]? ≠ some h.storage)
    (u : TableRef) (key : Key) : (s'.store.indexOf u)[key]? ≠ some h.storage := by
  by_cases hstep : ∃ i, action = .step i
  · obtain ⟨i, rfl⟩ := hstep
    obtain ⟨call, instr, next, hc, hn, hr, hcalls⟩ := hd.calls_step
    intro hin
    have hm : Moves s.store s'.store call.job next := .of_run (hs.knows hc) hn hr
    obtain hin | ⟨ho, -, c, hkept, -⟩ := hm.index hin
    · exact hnot u key hin
    · -- Only its maker could put it there, and that one has done so before.
      obtain ⟨j, maker, hj, hkept'⟩ := hk
      have hmade' := Job.made?_of_kept? hkept'
      obtain hmade | ⟨hnone, -⟩ := hm.made (Job.made?_of_kept? hkept)
      · obtain rfl := hs.maker_unique hj hc hmade' hmade
        cases hc.symm.trans hj
        rw [Job.kept?_of_owned? ho] at hkept'
        cases hkept'
      · exact hnone (hs.made hj hmade')
  · rw [(hd.views_kept fun i he ↦ hstep ⟨i, he⟩).1]
    exact hnot u key

/-- Whatever happens, a buffer is at no earlier stage than it was. -/
theorem IsAt.le (hx : s.IsAt a.table h x) (hk : s.Keeps a h) (hs : Reachable limits s)
    (hr : s.run? k = some s') (hy : s'.IsAt a.table h y) : x ≤ y := by
  have hunindexed (hnot : ∀ (u : TableRef) (key : Key), (s.store.indexOf u)[key]? ≠ some h.storage)
      (u : TableRef) (key : Key) : (s'.store.indexOf u)[key]? ≠ some h.storage := by
    refine (run_induct (P := fun s ↦ s.Sound ∧ s.Keeps a h ∧
      ∀ (u : TableRef) (key : Key), (s.store.indexOf u)[key]? ≠ some h.storage)
      (fun _ _ _ _ ih ha hact ↦ ?_) ⟨hs.sound, hk, hnot⟩ hr).2.2 u key
    have hd := does_of_act? hact
    exact ⟨ih.1.of_does ha hd, ih.2.1.of_does ih.1 hd, ih.1.unindexed_kept hd ih.2.1 ih.2.2⟩
  have hreleased (hhas : s.store.Has (.content h.storage))
      (hempty : (s.store.contentOf h.storage).Emptied) :
      (s'.store.contentOf h.storage).Emptied := by
    refine (run_induct (P := fun s ↦ s.Sound ∧ s.store.Has (.content h.storage) ∧
      (s.store.contentOf h.storage).Emptied) (fun _ _ _ _ ih ha hact ↦ ?_)
      ⟨hs.sound, hhas, hempty⟩ hr).2.2
    have hd := does_of_act? hact
    obtain ⟨hhas, hsame⟩ := ih.1.released_kept hd ih.2.1 ih.2.2.released
    exact ⟨ih.1.of_does ha hd, hhas, hsame ▸ ih.2.2⟩
  cases x with
  | live => exact Nat.zero_le _
  | leaving =>
    cases y with
    | live => exact absurd hy.1 (hunindexed hx.1 a.table h.key)
    | leaving | dead => decide
  | dead =>
    cases y with
    | live => exact absurd hy.1 (hunindexed hx.1 a.table h.key)
    | leaving =>
      cases hy.2.1.symm.trans (hreleased hx.2.1 hx.2.2).released
    | dead => decide

/-! ### Access through a handle -/

/-- To a call that holds its content but is not removing it, a buffer is live or dead. -/
private theorem Reachable.live_iff (hr : Reachable limits s) (hk : s.Keeps a h) {mode : Mode}
    (hi : s.Holds i (.content h.storage) mode) (hnot : ¬ s.Removes i a.table h) :
    (s.store.contentOf h.storage).released = false ↔
      (s.store.indexOf a.table)[h.key]? = some h.storage := by
  obtain ⟨x, hx⟩ := hr.isAt hk
  cases x with
  | live => exact iff_of_true hx.2.1 hx.1
  | leaving =>
    obtain ⟨j, hj, hheld, -⟩ := hx.2.2
    obtain ⟨rfl, -⟩ := hr.sound.locked.unique hheld hi
    exact absurd hj hnot
  | dead =>
    refine iff_of_false ?_ (hx.1 a.table h.key)
    simp [hx.2.2.released]

/-- While an access is about to look at its content, the content stays. -/
private theorem Sound.content_under_check (hs : s.Sound) (hd : s.Does supply action s')
    {c : Access} (hj : s.job? i = some (.accessing c .check)) (hne : action ≠ .step i) :
    s'.store.contentOf c.handle.storage = s.store.contentOf c.handle.storage := by
  have hheld : s.Holds i (.content c.handle.storage) c.mode :=
    hs.holds_of_next hj rfl (by simp [Job.held, Access.held])
  exact hs.locked.content_kept hs.proper hd hheld hne (hd.not_writer hj rfl)

/-- An access that has been given its content goes straight on to its end, in two steps at most. -/
private theorem Reachable.access_run {c : Access} {live : Bool} {n : Nat} (hs : Reachable limits s)
    (hn : n ≤ 2) (hj : s.job? i = some (.accessing c (c.course live n)))
    (hlive : n = 0 → (s.store.contentOf c.handle.storage).released = !live)
    (hr : s.run? k = some s') :
    n + k.stepsOf i ≤ 2 ∧ s'.job? i = some (.accessing c (c.course live (n + k.stepsOf i))) := by
  induction k generalizing s n with
  | nil =>
    cases hr
    exact ⟨hn, hj⟩
  | cons e k ih =>
    obtain ⟨ha, u, hu, hr⟩ := run?_cons_eq_some.mp hr
    have hd := does_of_act? hu
    have hreach := hs.act ha hu
    rw [History.stepsOf_cons]
    by_cases hstep : e.2 = .step i
    · rw [if_pos hstep, ← Nat.add_assoc]
      rw [hstep] at hd
      obtain ⟨instr, next, hp, hrun, hnext⟩ := hd.job_step hj
      match n with
      | 0 =>
        cases hp
        obtain ⟨-, rfl, -⟩ := Instr.run_readContent.mp hrun
        refine ih hreach (n := 1) (by omega) ?_ (by simp) hr
        rw [hnext]
        cases live <;> simp [Access.course, hlive rfl]
      | 1 =>
        cases live with
        | true => cases hp
        | false =>
          cases hp
          obtain ⟨-, rfl, -⟩ := Instr.run_release.mp hrun
          exact ih hreach (n := 2) (by omega) hnext (by simp) hr
      | n + 2 => cases hp
    · rw [if_neg hstep, Nat.zero_add]
      refine ih hreach hn (hd.job_kept hj hstep) (fun h0 ↦ ?_) hr
      subst h0
      rw [hs.sound.content_under_check hd hj hstep]
      exact hlive rfl

/-- What a call has come to shows in its job. -/
theorem outcome?_of_job? {job : Job} (hj : s.job? i = some job) : s.outcome? i = job.outcome? := by
  obtain ⟨call, hc, rfl⟩ := job?_eq_some.mp hj
  simp [Service.outcome?, hc]

/-- An access that has been given its content has ended or can take its next step. -/
private theorem Reachable.access_goes (hs : Reachable limits s) {c : Access} {live : Bool} {n : Nat}
    (hj : s.job? i = some (.accessing c (c.course live n))) (supply : Supply) :
    (s.outcome? i).isSome ∨ (s.step? supply i).isSome := by
  have hended (o : Outcome) (ho : c.course live n = .ended o) :
      (s.outcome? i).isSome ∨ (s.step? supply i).isSome := by
    left
    rw [outcome?_of_job? hj]
    simp [ho, Job.outcome?, Job.progress, Access.progress, Progress.map]
  obtain _ | _ | n := n
  · exact .inr (hs.goes hj rfl rfl supply)
  · cases live with
    | true => exact hended _ rfl
    | false => exact .inr (hs.goes hj rfl rfl supply)
  · exact hended _ rfl

/-! ### The life of a buffer -/

/-- The life cycle of buffers. A buffer that an allocation has put into an index is, at any time, at
exactly one stage, and never goes back to an earlier one; its allocation keeps its handle. No two
entries of any indexes lead to the same storage, and of two handles that calls have returned both
are to the same storage exactly when the same call has returned them. And an access through a
handle, once it has been given the content, always comes to its end: to a guard exactly when that
storage is in the index of its table under the key of the handle, and otherwise to not finding the
key. -/
theorem storage_life_cycle (hs : Reachable limits s) (hr : s.run? k = some s') :
    (∀ a h, s.Keeps a h → s'.Keeps a h ∧
      (∃ x, s.IsAt a.table h x ∧ ∀ y, s.IsAt a.table h y → y = x) ∧
      (∃ x, s'.IsAt a.table h x ∧ ∀ y, s'.IsAt a.table h y → y = x) ∧
      ∀ x y, s.IsAt a.table h x → s'.IsAt a.table h y → x ≤ y) ∧
    (∀ (t u : TableRef) (key key' : Key) (b : StorageRef), (s.store.indexOf t)[key]? = some b →
      (s.store.indexOf u)[key']? = some b → t = u ∧ key = key') ∧
    (∀ i h, s.outcome? i = some (.handle h) →
      (∃ a, s.job? i = some (.allocating a (.ended (.handle h))) ∧ s.Keeps a h) ∧
      ∀ j g, s.outcome? j = some (.handle g) → (h.sameStorage g = true ↔ i = j)) ∧
    ∀ i c, s.job? i = some (.accessing c .check) →
      ∃ a, s.Keeps a c.handle ∧ ∃ live, (live = true ↔
          (s.store.indexOf a.table)[c.handle.key]? = some c.handle.storage) ∧
        k.stepsOf i ≤ 2 ∧ s'.job? i = some (.accessing c (c.course live (k.stepsOf i))) ∧
        ∀ supply, (s'.outcome? i).isSome ∨ (s'.step? supply i).isSome := by
  have hsound := hs.sound
  have hs' := hs.run hr
  refine ⟨fun a h hk ↦ ?_, fun t u key key' b ↦ hsound.distinct, fun i h hi ↦ ?_, fun i c hj ↦ ?_⟩
  · have hk' := hk.run hs hr
    obtain ⟨x, hx⟩ := hs.isAt hk
    obtain ⟨y, hy⟩ := hs'.isAt hk'
    exact ⟨hk', ⟨x, hx, fun z hz ↦ hz.unique hx⟩, ⟨y, hy, fun z hz ↦ hz.unique hy⟩,
      fun z w hz hw ↦ hz.le hk hs hr hw⟩
  · obtain ⟨call, hc, ho⟩ := Option.bind_eq_some_iff.mp hi
    obtain ⟨a, hjob, -⟩ := (hsound.proper hc).handle ho
    have hkept : call.job.kept? = some (a, h) := by rw [hjob]; rfl
    refine ⟨⟨a, job?_eq_some.mpr ⟨call, hc, hjob⟩, i, call, hc, hkept⟩, fun j g hj ↦ ?_⟩
    obtain ⟨other, hc', ho'⟩ := Option.bind_eq_some_iff.mp hj
    obtain ⟨d, hjob', -⟩ := (hsound.proper hc').handle ho'
    have hkept' : other.job.kept? = some (d, g) := by rw [hjob']; rfl
    constructor
    · intro hsame
      have hmade := Job.made?_of_kept? hkept
      rw [show h.storage = g.storage by simpa [Handle.sameStorage] using hsame] at hmade
      exact hsound.maker_unique hc hc' hmade (Job.made?_of_kept? hkept')
    · rintro rfl
      cases hc.symm.trans hc'
      cases hkept.symm.trans hkept'
      simp [Handle.sameStorage]
  · obtain ⟨call, hc, hjob⟩ := job?_eq_some.mp hj
    obtain ⟨a, hk⟩ := hsound.used hc (h := c.handle) (by rw [hjob]; rfl)
    have hheld : s.Holds i (.content c.handle.storage) c.mode :=
      hsound.holds_of_next hj rfl (by simp [Job.held, Access.held])
    have hiff := hs.live_iff hk hheld (by
      rintro ⟨other, hc', he⟩
      cases hc.symm.trans hc'
      rw [hjob] at he
      cases he)
    have hfound : 0 = 0 → (s.store.contentOf c.handle.storage).released =
        !!(s.store.contentOf c.handle.storage).released := fun _ ↦ (Bool.not_not _).symm
    obtain ⟨hle, hj'⟩ := hs.access_run (by omega) hj hfound hr
    rw [Nat.zero_add] at hle hj'
    exact ⟨a, hk, _, by simpa using hiff, hle, hj', fun supply ↦ hs'.access_goes hj' supply⟩

/-- A buffer has been freed, and an access through its handle has been given the content. -/
def accessAfterFree : History :=
  .allocated ⟨7⟩ 4 4 ++ .call (.free 0 0 ⟨0⟩) 2 13 ++ .call (.access ⟨⟨⟨7⟩, ⟨0⟩⟩, 0⟩ .shared) 3 1

/-- The buffer is dead, and so the access is not going to find it. -/
theorem freed_buffer_is_dead : ∃ s s' : Service,
    (withTables [{}]).run? accessAfterFree = some s ∧
    s.run? [(.addressable, .step 3), (.addressable, .step 3)] = some s' ∧
    s.IsAt 0 ⟨⟨⟨7⟩, ⟨0⟩⟩, 0⟩ .dead ∧
    s'.job? 3 = some (.accessing ⟨⟨⟨⟨7⟩, ⟨0⟩⟩, 0⟩, .shared⟩
      (.ended (.refused (.notFound ⟨⟨7⟩, ⟨0⟩⟩)))) := by
  have hrun : (((withTables [{}]).run? accessAfterFree).bind fun s ↦
      (s.run? [(.addressable, .step 3), (.addressable, .step 3)]).map fun _ ↦
        (s.outcome? 1, s.job? 1, s.job? 3, (s.store.contentOf 0).released)) =
      some (some (.handle ⟨⟨⟨7⟩, ⟨0⟩⟩, 0⟩),
        some (.allocating ⟨0, 0, ⟨7⟩, 4, 4⟩ (.ended (.handle ⟨⟨⟨7⟩, ⟨0⟩⟩, 0⟩))),
        some (.accessing ⟨⟨⟨⟨7⟩, ⟨0⟩⟩, 0⟩, .shared⟩ .check), true) := by
    decide +kernel
  obtain ⟨s, hs, h⟩ := Option.bind_eq_some_iff.mp hrun
  obtain ⟨s', hs', h⟩ := Option.map_eq_some_iff.mp h
  simp only [Prod.mk.injEq] at h
  obtain ⟨hout, hmaker, hcheck, hreleased⟩ := h
  obtain ⟨hstages, -, hhandles, haccess⟩ := storage_life_cycle ⟨_, hs⟩ hs'
  obtain ⟨⟨a, hjob, hkept⟩, -⟩ := hhandles 1 _ hout
  cases hmaker.symm.trans hjob
  obtain ⟨-, ⟨x, hx, -⟩, -⟩ := hstages _ _ hkept
  obtain ⟨c, hkept', live, hlive, -, hcourse, -⟩ := haccess 3 _ hcheck
  have hdead : s.IsAt 0 ⟨⟨⟨7⟩, ⟨0⟩⟩, 0⟩ .dead := by
    cases x with
    | dead => exact hx
    | live | leaving =>
      have hunreleased := hx.2.1
      rw [hreleased] at hunreleased
      cases hunreleased
  have hfalse : live = false := Bool.eq_false_iff.mpr fun h ↦ hdead.1 _ _ (hlive.mp h)
  rw [hfalse] at hcourse
  exact ⟨s, s', hs, hs', hdead, hcourse⟩

end Service

end SessionBuffers
