import SessionBuffers.Proofs.Origin
import SessionBuffers.Proofs.Waiting

/-!
# Content under a guard

From the step at which a call is granted content until its guard is dropped, the content stays live
and changes only by what is written under that very guard; so it keeps its sizes, unless it is
swapped there for other content. A lookup that has found its key ends with such a guard, whatever
else is under way.
-/

namespace SessionBuffers

/-! ### Writes -/

/-- Content after an edit of one region; none when the edit passes the end of the region. -/
def Content.edit? (c : Content) (which : Side) (e : Region.Edit) : Option Content :=
  ((c.side which).edit? e).map (c.setSide which)

/-- What a client writes under one guard: it edits a region, or swaps other content in. -/
inductive Write where
  | edit (which : Side) (e : Region.Edit)
  | replace (content : Content)

/-- Content after a write; none when an edit passes the end of its region. -/
def Content.write? (c : Content) : Write → Option Content
  | .edit which e => c.edit? which e
  | .replace content => some content

/-- Content after writes in order. -/
def Content.writes? (c : Content) : List Write → Option Content
  | [] => some c
  | w :: rest => (c.write? w).bind fun c ↦ c.writes? rest

/-- An edit keeps the sizes of both regions. -/
theorem Content.size_edit? {c d : Content} {which : Side} {e : Region.Edit}
    (h : c.edit? which e = some d) : d.user.size = c.user.size ∧ d.kernel.size = c.kernel.size := by
  obtain ⟨region, he, rfl⟩ := Option.map_eq_some_iff.mp h
  cases which with
  | user => exact ⟨Region.size_edit? he, rfl⟩
  | kernel => exact ⟨rfl, Region.size_edit? he⟩

/-- As long as nothing is swapped in, writes keep the sizes of both regions. -/
theorem Content.size_writes? {c d : Content} {ws : List Write} (h : c.writes? ws = some d)
    (hedits : ∀ content, .replace content ∉ ws) :
    d.user.size = c.user.size ∧ d.kernel.size = c.kernel.size := by
  induction ws generalizing c with
  | nil =>
    cases h
    exact ⟨rfl, rfl⟩
  | cons w ws ih =>
    obtain ⟨x, hx, hd⟩ := Option.bind_eq_some_iff.mp h
    have hrest := ih hd fun content hmem ↦ hedits content (List.mem_cons_of_mem w hmem)
    cases w with
    | edit which e =>
      have hfirst := size_edit? hx
      exact ⟨hrest.1.trans hfirst.1, hrest.2.trans hfirst.2⟩
    | replace content => exact absurd List.mem_cons_self (hedits content)

theorem Content.writes?_append (c : Content) (ws vs : List Write) :
    c.writes? (ws ++ vs) = (c.writes? ws).bind fun c ↦ c.writes? vs := by
  induction ws generalizing c with
  | nil => rfl
  | cons w ws ih =>
    simp only [List.cons_append, Content.writes?]
    cases c.write? w with
    | none => rfl
    | some c => exact ih c

/-- How many steps a call makes in a history. -/
def History.stepsOf (i : CallRef) (h : History) : Nat := h.countP fun e ↦ e.2 == .step i

theorem History.stepsOf_cons (i : CallRef) (e : Supply × Action) (h : History) :
    History.stepsOf i (e :: h) = (if e.2 = .step i then 1 else 0) + h.stepsOf i := by
  simp [History.stepsOf, List.countP_cons, Nat.add_comm]

/-- Where a lookup stands so many steps after it has found its key. -/
def Lookup.course (l : Lookup) (b : StorageRef) : Nat → Phase
  | 0 => .lockContent b
  | 1 => .unlockTable b
  | 2 => .count b
  | _ => .ended (.guard ⟨⟨l.key, b⟩, l.mode⟩)

namespace Service

variable {limits : List Limits} {supply : Supply} {s s' : Service} {action : Action} {i : CallRef}
  {g : Guard} {a : Allocation}

/-- The guard a call has been granted and that is not dropped yet. -/
def granted? (s : Service) (i : CallRef) : Option Guard :=
  s.calls[i]?.bind fun call ↦ if call.dropped then none else call.job.granted?

/-- Whether the guard of a call has been dropped. -/
def HasDropped (s : Service) (i : CallRef) : Prop :=
  ∃ call, s.calls[i]? = some call ∧ call.dropped = true

theorem granted?_eq_some : s.granted? i = some g ↔
    ∃ call, s.calls[i]? = some call ∧ call.dropped = false ∧ call.job.granted? = some g := by
  simp [granted?, Option.bind_eq_some_iff]

/-- What an action writes under the guard of a call: an edit, or what is under the other guard of a
swap. -/
def writeUnder? (s : Service) (i : CallRef) : Action → Option Write
  | .edit j which e => if j = i then some (.edit which e) else none
  | .swap j k =>
    if j = i then (s.content? k).map .replace
    else if k = i then (s.content? j).map .replace
    else none
  | _ => none

/-- What a history writes under the guard of a call, in order. -/
def writesUnder (s : Service) (i : CallRef) (h : History) : List Write :=
  s.collected (fun s ↦ s.writeUnder? i) h

theorem writeUnder?_eq_none (hi : i ∉ action.writers) : s.writeUnder? i action = none := by
  unfold writeUnder?
  split
  · next j which e =>
    have hne : i ≠ j := by simpa using hi
    rw [if_neg hne.symm]
  · next j k =>
    have hne : i ≠ j ∧ i ≠ k := by simpa using hi
    rw [if_neg hne.1.symm, if_neg hne.2.symm]
  · rfl

theorem writesUnder_cons {h : History} (hact : s.act? supply action = some s') :
    s.writesUnder i ((supply, action) :: h) =
      (s.writeUnder? i action).toList ++ s'.writesUnder i h := collected_cons hact

/-- Who has been granted content holds it until the guard is dropped. -/
theorem holds_of_granted? (h : s.granted? i = some g) :
    s.Holds i (.content g.handle.storage) g.mode := by
  obtain ⟨call, hc, hdrop, hjob⟩ := granted?_eq_some.mp h
  exact ⟨call, hc, by simpa [Call.held, hdrop] using Job.held_of_granted? hjob⟩

theorem Sound.live_of_granted? (hs : s.Sound) (h : s.granted? i = some g) :
    (s.store.contentOf g.handle.storage).released = false := by
  obtain ⟨call, hc, hdrop, hjob⟩ := granted?_eq_some.mp h
  exact hs.granted hc hdrop hjob

/-! ### A guard is kept until it is dropped -/

/-- A job that has been granted content goes on with the same guard. -/
private theorem granted?_step {job : Job} {instr : Instr Job} (h : job.granted? = some g)
    (hn : job.progress = .next instr) : instr.Always fun next ↦ next.granted? = some g := by
  unfold Job.granted? at h
  split at h <;> cases h
  · cases hn
    rfl
  · cases hn
    rfl
  · cases hn
  · cases hn

/-- The guard a client holds is the one that was granted. -/
theorem Sound.granted?_of_guard? (hs : s.Sound) (h : s.guard? i = some g) :
    s.granted? i = some g := by
  obtain ⟨call, hc, hg⟩ := guard?_eq_some.mp h
  obtain ⟨hd, ho⟩ := Call.guard?_eq_some.mp hg
  exact granted?_eq_some.mpr ⟨call, hc, hd, (hs.proper hc).granted? ho⟩

/-- Under the guard of a call that an action writes under, the content becomes what is written. -/
private theorem Sound.written_under {storages : Array Storage} (hs : s.Sound)
    (hw : s.Writes action storages) (hi : i ∈ action.writers) (hg : s.granted? i = some g) :
    g.mode = .exclusive ∧ ∃ w, s.writeUnder? i action = some w ∧
      (s.store.contentOf g.handle.storage).write? w =
        some (({ s.store with storages } : Store).contentOf g.handle.storage) := by
  -- The guard that is written under is the one that has been granted.
  have hsame {j : CallRef} {f : Guard} (hj : i = j) (hf : s.guard? j = some f) : f = g := by
    subst hj
    exact Option.some.inj ((hs.granted?_of_guard? hf).symm.trans hg)
  cases hw with
  | @edit j which e _ f region hf hb hm he hl hc =>
    obtain rfl : i = j := List.mem_singleton.mp hi
    obtain rfl := hsame rfl hf
    refine ⟨hm, .edit which e, if_pos rfl, ?_⟩
    rw [hc, if_pos rfl, Content.write?, Content.edit?, he]
    rfl
  | @swap j k _ f f' hne hf hf' hb hb' hm hm' hl hc =>
    have hcontent := (content?_eq_some hf).mpr ⟨hb, rfl⟩
    have hcontent' := (content?_eq_some hf').mpr ⟨hb', rfl⟩
    simp only [Action.writers, List.mem_cons, List.not_mem_nil, or_false] at hi
    rcases hi with rfl | rfl
    · obtain rfl := hsame rfl hf
      refine ⟨hm, .replace (s.store.contentOf f'.handle.storage), ?_, ?_⟩
      · rw [writeUnder?, if_pos rfl, hcontent']
        rfl
      · rw [hc, Equiv.swap_apply_left]
        rfl
    · obtain rfl := hsame rfl hf'
      refine ⟨hm', .replace (s.store.contentOf f.handle.storage), ?_, ?_⟩
      · rw [writeUnder?, if_neg hne, if_pos rfl, hcontent]
        rfl
      · rw [hc, Equiv.swap_apply_right]
        rfl

/-- What one action does to granted content: the guard is dropped, or it stays and the content
becomes what the action writes under it, if anything. -/
private theorem Sound.granted_step (hs : s.Sound) (hd : s.Does supply action s')
    (hg : s.granted? i = some g) :
    s'.HasDropped i ∨ s'.granted? i = some g ∧
      (s.store.contentOf g.handle.storage).writes? (s.writeUnder? i action).toList =
        some (s'.store.contentOf g.handle.storage) ∧
      ((s.writeUnder? i action).isSome → g.mode = .exclusive) := by
  obtain ⟨call, hc, hdrop, hjob⟩ := granted?_eq_some.mp hg
  have hholds := holds_of_granted? hg
  by_cases hstep : action = .step i
  · subst hstep
    cases hd with
    | tend hk _ => cases hk
    | @step _ c instr job store hi hn hr =>
      cases hc.symm.trans hi
      have hnext : job.granted? = some g := Instr.Always.of_run
        (P := fun next : Job ↦ next.granted? = some g) (granted?_step hjob hn) hr
      have hsame : store.contentOf g.handle.storage = s.store.contentOf g.handle.storage := by
        have hm : Moves s.store store call.job job := .of_run (hs.knows hc) hn hr
        obtain h | ⟨-, -, -, hnone, -⟩ := hm.content (hs.locked.has_of_holds hholds)
        · exact h
        · rw [hnext] at hnone
          cases hnone
      refine .inr ⟨granted?_eq_some.mpr ⟨{ call with job }, ?_, hdrop, hnext⟩, ?_, ?_⟩
      · simp [getElem?_calls_modify hc]
      · simp [writeUnder?, Content.writes?, hsame]
      · simp [writeUnder?]
  by_cases hdropped : action = .dropGuard i
  · subst hdropped
    cases hd with
    | tend hk _ => cases hk
    | @drop _ c g' hi hg' hb =>
      exact .inl ⟨{ c with dropped := true }, by simp [getElem?_calls_modify hi], rfl⟩
  have hkept : s'.granted? i = some g :=
    granted?_eq_some.mpr ⟨call, hd.call_kept hc hstep hdropped, hdrop, hjob⟩
  by_cases hwriter : i ∈ action.writers
  · have hwritten : g.mode = .exclusive ∧ ∃ w, s.writeUnder? i action = some w ∧
        (s.store.contentOf g.handle.storage).write? w =
          some (s'.store.contentOf g.handle.storage) := by
      cases hd with
      | edit hw | swap hw => exact hs.written_under hw hwriter hg
      | @tend action store hk ha => cases action <;> simp_all [Action.isTending]
      | _ => simp at hwriter
    obtain ⟨hm, w, hw, hcontent⟩ := hwritten
    refine .inr ⟨hkept, ?_, fun _ ↦ hm⟩
    rw [hw, Option.toList_some, Content.writes?, hcontent]
    rfl
  · have hsame := hs.locked.content_kept hs.proper hd hholds hstep hwriter
    have hno := writeUnder?_eq_none (s := s) hwriter
    exact .inr ⟨hkept, by simp [hno, Content.writes?, hsame], by simp [hno]⟩

/-- What is dropped stays dropped. -/
private theorem HasDropped.of_does (h : s.HasDropped i) (hd : s.Does supply action s') :
    s'.HasDropped i := by
  obtain ⟨call, hc, hdrop⟩ := h
  by_cases hstep : action = .step i
  · subst hstep
    cases hd with
    | tend hk _ => cases hk
    | @step _ c instr job store hi hn hr =>
      cases hc.symm.trans hi
      exact ⟨{ call with job }, by simp [getElem?_calls_modify hc], hdrop⟩
  by_cases hdropped : action = .dropGuard i
  · subst hdropped
    cases hd with
    | tend hk _ => cases hk
    | @drop _ c g hi hg hb =>
      exact ⟨{ c with dropped := true }, by simp [getElem?_calls_modify hi], rfl⟩
  · exact ⟨call, hd.call_kept hc hstep hdropped, hdrop⟩

/-- What a whole history does to granted content: the guard is dropped in it, or it stays and the
content becomes what is written under it. -/
private theorem Sound.granted_run {h : History} (hs : s.Sound) (hg : s.granted? i = some g)
    (hr : s.run? h = some s') :
    s'.HasDropped i ∨ s'.granted? i = some g ∧
      (s.store.contentOf g.handle.storage).writes? (s.writesUnder i h) =
        some (s'.store.contentOf g.handle.storage) ∧
      (s.writesUnder i h ≠ [] → g.mode = .exclusive) := by
  induction h generalizing s with
  | nil =>
    cases hr
    exact .inr ⟨hg, rfl, fun h ↦ absurd rfl h⟩
  | cons e h ih =>
    obtain ⟨ha, u, hu, hr⟩ := run?_cons_eq_some.mp hr
    have hd := does_of_act? hu
    obtain hdrop | ⟨hgu, hone, hmode⟩ := hs.granted_step hd hg
    · left
      exact run_induct (P := fun s ↦ s.HasDropped i)
        (fun _ _ _ _ h _ ha ↦ h.of_does (does_of_act? ha)) hdrop hr
    · obtain hdrop | ⟨hgs, hrest, hmodes⟩ := ih (hs.of_does ha hd) hgu hr
      · exact .inl hdrop
      · rw [writesUnder_cons hu]
        refine .inr ⟨hgs, ?_, fun hne ↦ ?_⟩
        · rw [Content.writes?_append, hone]
          exact hrest
        · cases he : s.writeUnder? i e.2 with
          | some w => exact hmode (by simp [he])
          | none =>
            rw [he] at hne
            exact hmodes hne

/-! ### A lookup that has found its key -/

/-- A lookup that has found its key goes straight on to its guard, in three steps at most. -/
theorem course_run {l : Lookup} {b : StorageRef} {h : History} {n : Nat} (hn : n ≤ 3)
    (hj : s.job? i = some (.lookingUp l (l.course b n))) (hr : s.run? h = some s') :
    n + h.stepsOf i ≤ 3 ∧ s'.job? i = some (.lookingUp l (l.course b (n + h.stepsOf i))) := by
  induction h generalizing s n with
  | nil =>
    cases hr
    exact ⟨hn, hj⟩
  | cons e h ih =>
    obtain ⟨-, u, hu, hr⟩ := run?_cons_eq_some.mp hr
    have hd := does_of_act? hu
    rw [History.stepsOf_cons]
    by_cases hstep : e.2 = .step i
    · rw [if_pos hstep, ← Nat.add_assoc]
      rw [hstep] at hd
      obtain ⟨instr, next, hp, hrun, hnext⟩ := hd.job_step hj
      match n with
      | 0 =>
        cases hp
        obtain ⟨-, _, -, rfl, -⟩ := Instr.run_acquire.mp hrun
        exact ih (n := 1) (by omega) hnext hr
      | 1 =>
        cases hp
        obtain ⟨-, rfl, -⟩ := Instr.run_release.mp hrun
        exact ih (n := 2) (by omega) hnext hr
      | 2 =>
        cases hp
        obtain ⟨-, rfl, -⟩ := Instr.run_count.mp hrun
        exact ih (n := 3) (by omega) hnext hr
      | n + 3 => cases hp
    · rw [if_neg hstep, Nat.zero_add]
      exact ih hn (hd.job_kept hj hstep) hr

/-- A lookup that has found its key can take its next step, or has ended with its guard, or waits
for content that a client has a guard on or that is held by a call which can take a step. -/
theorem Reachable.course_goes (hr : Reachable limits s) {l : Lookup} {b : StorageRef}
    {n : Nat} (hj : s.job? i = some (.lookingUp l (l.course b n))) (supply : Supply) :
    3 ≤ n ∨ (s.step? supply i).isSome ∨ n = 0 ∧ ∃ j m, s.Holds j (.content b) m ∧
      ((∃ g, s.guard? j = some g ∧ g.handle.storage = b) ∨ (s.step? supply j).isSome) := by
  obtain ⟨call, hc, hjob⟩ := job?_eq_some.mp hj
  match n with
  | 0 =>
    have hn : call.job.progress =
        .next (.acquire (.content b) l.mode (.lookingUp l (.unlockTable b))) := by
      rw [hjob]
      rfl
    have hstep := hr.isSome_step? hc hn supply
    cases hadm : (s.store.lockOf (.content b)).admits l.mode with
    | true => exact .inr (.inl (hstep.trans hadm))
    | false =>
      obtain ⟨j, m, hheld⟩ := Lock.exists_holds_of_not_admits hadm
      have hheld := (hr.sound.locked.holds_iff _ j m).mp hheld
      have hw : s.wants i = some (.content b, l.mode) :=
        wants_eq_some.mpr ⟨call, hc, by simp [Job.wants, hn, Instr.wants]⟩
      exact .inr (.inr ⟨rfl, j, m, hheld, hr.content_holder hw hheld supply⟩)
  | 1 =>
    have hn : call.job.progress = .next (.release (.table l.table) (.lookingUp l (.count b))) := by
      rw [hjob]
      rfl
    exact .inr (.inl (hr.isSome_step? hc hn supply))
  | 2 =>
    have hn : call.job.progress = .next (.count l.table .lookups 1
        (.lookingUp l (.ended (.guard ⟨⟨l.key, b⟩, l.mode⟩)))) := by
      rw [hjob]
      rfl
    exact .inr (.inl (hr.isSome_step? hc hn supply))
  | n + 3 => exact .inl (by omega)

/-! ### What a guard guarantees -/

/-- What holds of granted content, after a history that has swapped the contents of these pairs. -/
structure Protects (s : Service) (pairs : List (StorageRef × StorageRef)) (g : Guard)
    (a : Allocation) : Prop where
  kept : s.Keeps a g.handle
  live : (s.store.contentOf g.handle.storage).released = false
  /-- It has the sizes asked for by the allocation that it comes from. -/
  sized : s.Sized pairs g.handle.storage
  /-- This is the allocation of the buffer itself, unless the content has been swapped for other
  content. -/
  sizes : origin pairs g.handle.storage = g.handle.storage →
    a.Sizes (s.store.contentOf g.handle.storage)

private theorem Sound.protects {pairs : List (StorageRef × StorageRef)} (hs : s.Sound)
    (ht : s.Descends pairs) (hk : s.Keeps a g.handle) (hg : s.granted? i = some g) :
    s.Protects pairs g a := by
  have hlive := hs.live_of_granted? hg
  exact ⟨hk, hlive, ht.sized ⟨a, g.handle, hk, rfl⟩ hlive,
    fun horigin ↦ ht.sizes_of_keeps hk horigin hlive⟩

/-- Granted content was handed out by an allocation. -/
private theorem Sound.keeps_of_granted? (hs : s.Sound) (hg : s.granted? i = some g) :
    ∃ a, s.Keeps a g.handle := by
  obtain ⟨call, hc, -, hjob⟩ := granted?_eq_some.mp hg
  exact hs.used hc (Job.used?_of_granted? hjob (hs.proper hc))

/-- A client has guards for writing on two buffers of different sizes, and another call has found
the key of the first. -/
def twoWriters : History :=
  .allocated ⟨7⟩ 4 4 ++ .call (.allocate 0 0 8 2) 2 14 ++
    .call (.lookup 0 ⟨⟨7⟩, ⟨0⟩⟩ .exclusive) 3 5 ++ .call (.lookup 0 ⟨⟨7⟩, ⟨1⟩⟩ .exclusive) 4 5 ++
      .call (.lookup 0 ⟨⟨7⟩, ⟨0⟩⟩ .shared) 5 2

end Service

end SessionBuffers
