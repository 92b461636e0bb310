import SessionBuffers.Proofs.Ledger

/-!
# Ledgers and ideal states

A ledger matches an ideal state when it lists the same buffers under the same owners with the same
bytes (`Ledger.Matches`). Every request that takes effect at one moment is then answered alike, and
what becomes of the two matches again (`Ledger.Matches.effect`).
-/

namespace SessionBuffers

/-! ### Keys in ascending order -/

/-- Ascending lists of the same keys are the same. -/
theorem Key.eq_of_ascending {ks ls : List Key} (hk : ks.Pairwise fun a b ↦ compare a b = .lt)
    (hl : ls.Pairwise fun a b ↦ compare a b = .lt) (h : ∀ key, key ∈ ks ↔ key ∈ ls) :
    ks = ls := by
  have hnodup {ks : List Key} (hk : ks.Pairwise fun a b ↦ compare a b = .lt) : ks.Nodup := by
    refine hk.imp fun hlt he ↦ ?_
    subst he
    simp at hlt
  refine ((List.perm_ext_iff_of_nodup (hnodup hk) (hnodup hl)).mpr h).eq_of_pairwise
    (fun _ _ _ _ hab hba ↦ ?_) hk hl
  exact absurd hba (Std.OrientedCmp.not_lt_of_lt hab)

private theorem BufferId.first_le (b : BufferId) : compare b ⟨0⟩ ≠ .lt := by
  change compare b.number 0 ≠ .lt
  rw [ne_eq, Std.compare_eq_lt]
  exact UInt64.not_lt_zero

private theorem BufferId.le_last (b : BufferId) : compare b ⟨.ofNat (UInt64.size - 1)⟩ ≠ .gt := by
  change compare b.number (.ofNat (UInt64.size - 1)) ≠ .gt
  rw [ne_eq, Std.compare_eq_gt, UInt64.lt_iff_toNat_lt]
  have hlt := b.number.toNat_lt
  simp only [UInt64.toNat_ofNat', UInt64.size]
  omega

/-- The keys between the first and the last of a session are those of the session. -/
theorem Key.between_iff (key : Key) (s : SessionId) :
    compare key (.first s) ≠ .lt ∧ compare key (.last s) ≠ .gt ↔ key.session = s := by
  have heq : compare key.session s = .eq ↔ key.session = s := Std.LawfulEqCmp.compare_eq_iff_eq
  rw [Key.compare_eq, Key.compare_eq, ← heq]
  change (compare key.session s).then (compare key.buffer ⟨0⟩) ≠ .lt ∧
    (compare key.session s).then (compare key.buffer ⟨.ofNat (UInt64.size - 1)⟩) ≠ .gt ↔ _
  cases hs : compare key.session s with
  | lt | gt => simp
  | eq =>
    simp only [Ordering.eq_then, iff_true]
    exact ⟨key.buffer.first_le, key.buffer.le_last⟩

section Filter

variable {α : Type} {p : α → Bool} {xs : List α}

/-- Of a list in which what has a property stands before what has not, the beginning is what has the
property. -/
private theorem takeWhile_eq_filter (h : xs.Pairwise fun a b ↦ p b = true → p a = true) :
    xs.takeWhile p = xs.filter p := by
  induction xs with
  | nil => rfl
  | cons x xs ih =>
    obtain ⟨hx, hxs⟩ := List.pairwise_cons.mp h
    cases hp : p x with
    | true => simp [hp, ih hxs]
    | false => simpa [hp] using fun y hy hpy ↦ Bool.false_ne_true (hp.symm.trans (hx y hy hpy))

/-- The rest of such a list is what has not the property. -/
private theorem dropWhile_eq_filter (h : xs.Pairwise fun a b ↦ p b = true → p a = true) :
    xs.dropWhile p = xs.filter fun x ↦ !p x := by
  induction xs with
  | nil => rfl
  | cons x xs ih =>
    obtain ⟨hx, hxs⟩ := List.pairwise_cons.mp h
    cases hp : p x with
    | true => simp [hp, ih hxs]
    | false =>
      have hall : ∀ y ∈ xs, (!p y) = true := fun y hy ↦ by
        simpa using fun hpy ↦ Bool.false_ne_true (hp.symm.trans (hx y hy hpy))
      simp [hp, List.filter_eq_self.mpr hall]

end Filter

/-- The keys of one session are found by looking at all. -/
theorem Index.ofSession_eq (index : Index) (s : SessionId) :
    index.ofSession s = index.keys.filter fun key ↦ key.session = s := by
  have hordered := Std.ExtTreeMap.ordered_keys (t := index)
  rw [ofSession, between, dropWhile_eq_filter, takeWhile_eq_filter, List.filter_filter]
  · apply List.filter_congr
    intro key _
    rw [Bool.eq_iff_iff, decide_eq_true_iff, ← key.between_iff]
    cases compare key (.first s) <;> cases compare key (.last s) <;> simp
  · refine (hordered.filter _).imp fun hab hb ↦ ?_
    exact Std.TransCmp.isLE_trans (by simp [hab]) hb
  · refine hordered.imp fun hab hb ↦ ?_
    rw [Ordering.isLT_iff_eq_lt] at hb ⊢
    exact Std.TransCmp.lt_trans hab hb

/-! ### Matching -/

namespace Ledger

open Function (update)

variable {supply : Supply} {l l' : Ledger} {p : Ideal} {o : Outcome} {request : Request} {key : Key}
  {r : RegistryRef} {b : StorageRef} {session : SessionId}

theorem owner?_eq_some :
    l.owner? key = some r ↔ ∃ e, l.buffers[key]? = some e ∧ e.owner = r := by
  rw [owner?, Option.map_eq_some_iff]

theorem owner?_eq_none : l.owner? key = none ↔ l.buffers.contains key = false := by
  rw [owner?, Option.map_eq_none_iff, Std.ExtTreeMap.contains_eq_isSome_getElem?,
    Option.isSome_eq_false_iff, Option.isNone_iff_eq_none]

theorem mem_owned : key ∈ l.owned r ↔ l.owner? key = some r := by
  rw [owned, List.mem_filter, Std.ExtTreeMap.mem_keys, Std.ExtTreeMap.mem_iff_isSome_getElem?,
    decide_eq_true_iff, and_iff_right_iff_imp, owner?_eq_some]
  rintro ⟨e, he, -⟩
  rw [he]
  rfl

theorem getElem?_insert (e : Entry) (k : Key) :
    (l.buffers.insert key e)[k]? = if key = k then some e else l.buffers[k]? := by
  rw [Std.ExtTreeMap.getElem?_insert]
  simp only [Std.LawfulEqCmp.compare_eq_iff_eq]

theorem getElem?_erase (k : Key) :
    (l.buffers.erase key)[k]? = if key = k then none else l.buffers[k]? := by
  rw [Std.ExtTreeMap.getElem?_erase]
  simp only [Std.LawfulEqCmp.compare_eq_iff_eq]

theorem getElem?_filter_owner (r : RegistryRef) (k : Key) :
    (l.buffers.filter fun _ e ↦ e.owner ≠ r)[k]? =
      if l.owner? k = some r then none else l.buffers[k]? := by
  rw [Std.ExtTreeMap.getElem?_filter', owner?]
  cases l.buffers[k]? with
  | none => simp
  | some e => by_cases he : e.owner = r <;> simp [he]

/-- How a ledger goes with an ideal state: the rosters list what is owned, and the index leads to
content of the same bytes. -/
structure Matches (l : Ledger) (p : Ideal) : Prop where
  limits : p.limits = #[l.limits]
  registries : p.sessions = l.registries
  nextId : p.nextId 0 = l.nextId
  index : p.index 0 = l.buffers.map fun _ e ↦ e.serial
  roster : ∀ r key, (p.roster r).contains key = true ↔ l.owner? key = some r
  bytes : ∀ (key : Key) (e : Entry), l.buffers[key]? = some e →
    (p.content e.serial).bytes = e.bytes
  born : ∀ b, b ∈ p.born ↔ b < l.made
  serial : ∀ (key : Key) (e : Entry), l.buffers[key]? = some e → e.serial < l.made

namespace Matches

theorem getElem?_index (h : l.Matches p) (key : Key) :
    (p.index 0)[key]? = l.buffers[key]?.map Entry.serial := by
  rw [h.index, Std.ExtTreeMap.getElem?_map]

theorem contains_index (h : l.Matches p) (key : Key) :
    (p.index 0).contains key = l.buffers.contains key := by
  rw [h.index, Std.ExtTreeMap.contains_map]

theorem toList_roster (h : l.Matches p) (r : RegistryRef) : (p.roster r).toList = l.owned r := by
  refine Key.eq_of_ascending Std.ExtTreeSet.ordered_toList
    (Std.ExtTreeMap.ordered_keys.filter _) fun key ↦ ?_
  rw [mem_owned, ← h.roster]
  exact Roster.mem_toList

theorem sessionOf (h : l.Matches p) (hr : l.registries[r]? = some session) :
    p.sessionOf r = session := by
  rw [Ideal.sessionOf, h.registries, hr]
  rfl

theorem limitsOf (h : l.Matches p) : p.limitsOf 0 = l.limits := by
  rw [Ideal.limitsOf, h.limits]
  rfl

theorem capacityFor (h : l.Matches p) {purpose : Purpose} {capacity : UInt64}
    (hc : l.capacity? purpose = some capacity) : p.capacityFor purpose = capacity := by
  cases purpose with
  | alone c => exact Option.some.inj hc
  | table t | session t =>
    obtain _ | t := t
    · exact (congrArg Limits.sessionCapacity h.limitsOf).trans (Option.some.inj hc)
    · cases hc

end Matches

/-! ### What requests do to both -/

/-- A request is answered alike, and what becomes of the ledger and of the ideal state matches. -/
structure Alike (l : Ledger) (x : Outcome × Ledger) (y : Outcome × Ideal) : Prop where
  outcome : y.1 = x.1
  next : x.2.Matches y.2
  sessions : x.2.sessions = l.sessions
  handles : x.2.handles = l.handles

namespace Matches

/-- What only reads is answered alike when the answers are the same. -/
private theorem reads (h : l.Matches p) {o q : Outcome} (ho : q = o) : l.Alike (o, l) (q, p) :=
  ⟨ho, h, rfl, rfl⟩

/-- One more storage is set up, of which neither has a buffer yet. -/
private theorem provide (h : l.Matches p) (user kernel : UInt64) :
    Matches { l with made := l.made + 1 } (p.provide user kernel l.made) :=
  { h with
    bytes := fun key e he ↦ by
      dsimp only [Ideal.provide]
      rw [Function.update_of_ne (Nat.ne_of_lt (h.serial key e he)), h.bytes key e he]
    born := fun b ↦ by
      rw [Ideal.provide, List.mem_append, List.mem_singleton, h.born]
      exact Nat.lt_succ_iff_lt_or_eq.symm
    serial := fun key e he ↦ Nat.lt_succ_of_lt (h.serial key e he) }

/-- A buffer of zeros is entered into both under a new key. -/
private theorem enter (h : l.Matches p) {user kernel : UInt64} {r : RegistryRef} {b : StorageRef}
    (hb : b < l.made) (hz : p.content b = .zeroed user kernel)
    (hnew : l.buffers.contains key = false) :
    Matches { l with buffers := l.buffers.insert key ⟨r, b, .zeros user kernel⟩ }
      { p with
        index := update p.index 0 ((p.index 0).insert key b)
        roster := update p.roster r ((p.roster r).add key) } := by
  have hfree : l.owner? key = none := owner?_eq_none.mpr hnew
  refine { h with index := ?_, roster := fun q k ↦ ?_, bytes := fun k e he ↦ ?_,
                  serial := fun k e he ↦ ?_ }
  · apply Std.ExtTreeMap.ext_getElem?
    intro k
    dsimp only
    rw [Function.update_self, Index.getElem?_insert, h.getElem?_index,
      Std.ExtTreeMap.getElem?_map, getElem?_insert]
    split <;> rfl
  · dsimp only
    rw [owner?, getElem?_insert]
    by_cases hq : q = r
    · subst hq
      rw [Function.update_self, Roster.contains_add, h.roster]
      split
      · next hk => simp [hk]
      · next hk => simp [hk, owner?]
    · rw [Function.update_of_ne hq, h.roster]
      split
      · next hk => simp [← hk, hfree, Ne.symm hq]
      · rfl
  · rw [getElem?_insert] at he
    split at he
    · cases he
      rw [hz, Content.bytes_zeroed]
    · exact h.bytes k e he
  · rw [getElem?_insert] at he
    split at he
    · cases he
      exact hb
    · exact h.serial k e he

/-- Only a buffer that is set up is new. -/
theorem allocate (h : l.Matches p) (hr : l.registries[r]? = some session) {user kernel : UInt64}
    (hb : b ∈ (p.effect supply b (.allocate 0 r user kernel)).2.born → b = l.made) :
    l.Alike (l.allocate supply r session user kernel)
      (p.effect supply b (.allocate 0 r user kernel)) := by
  by_cases hmet : (l.limits.permits user kernel && supply.regions user kernel) = true
  · have heffect : p.effect supply b (.allocate 0 r user kernel) =
        if supply.slot user kernel then p.allocate 0 r user kernel b
        else (.refused (.allocationFailed user kernel), p.provide user kernel b) := by
      rw [Ideal.effect, h.limitsOf, if_pos hmet]
    rw [heffect] at hb ⊢
    obtain rfl : b = l.made := hb (by
      simp only [Ideal.allocate, Ideal.provide]
      split <;> (try split) <;> simp)
    have hprovided := h.provide user kernel
    simp only [Ledger.allocate, hmet, if_true]
    split
    · have hdrawn : Matches { l with nextId := ⟨l.nextId.number + 1⟩, made := l.made + 1 }
          { p.provide user kernel l.made with
            nextId := update p.nextId 0 ⟨l.nextId.number + 1⟩ } :=
        { hprovided with nextId := by simp }
      simp only [Ideal.allocate, h.sessionOf hr, h.nextId, h.contains_index]
      split
      · exact ⟨rfl, hdrawn, rfl, rfl⟩
      · next hnew =>
        exact ⟨rfl, hdrawn.enter (Nat.lt_succ_self _) (by simp [Ideal.provide])
          (Bool.not_eq_true _ ▸ hnew), rfl, rfl⟩
    · exact ⟨rfl, hprovided, rfl, rfl⟩
  · rw [Ideal.effect, h.limitsOf, if_neg hmet, Ledger.allocate, if_neg hmet]
    exact h.reads rfl

theorem free (h : l.Matches p) (hr : l.registries[r]? = some session) (id : BufferId) :
    l.Alike (l.free r ⟨session, id⟩) (p.effect supply b (.free 0 r id)) := by
  have hboth (key : Key) : ((p.index 0).contains key && (p.roster r).contains key) = true ↔
      l.owner? key = some r := by
    rw [Bool.and_eq_true, h.roster, h.contains_index, and_iff_right_iff_imp, owner?_eq_some]
    rintro ⟨e, he, -⟩
    simp [Std.ExtTreeMap.contains_eq_isSome_getElem?, he]
  simp only [Ideal.effect, Ideal.free, Ledger.free, h.sessionOf hr, hboth]
  split
  · next howner =>
    have hkept {k : Key} {e : Entry}
        (he : (l.buffers.erase ⟨session, id⟩)[k]? = some e) : l.buffers[k]? = some e := by
      rw [getElem?_erase] at he
      split at he
      · cases he
      · exact he
    refine ⟨rfl, ⟨h.limits, h.registries, h.nextId, ?_, fun q k ↦ ?_,
      fun k e he ↦ h.bytes k e (hkept he), h.born, fun k e he ↦ h.serial k e (hkept he)⟩, rfl, rfl⟩
    · apply Std.ExtTreeMap.ext_getElem?
      intro k
      dsimp only
      rw [Function.update_self, Index.getElem?_erase, h.getElem?_index,
        Std.ExtTreeMap.getElem?_map, getElem?_erase]
      split <;> rfl
    · dsimp only
      rw [owner?, getElem?_erase]
      by_cases hq : q = r
      · subst hq
        rw [Function.update_self, Roster.contains_remove, h.roster]
        split
        · next hk => simp [hk]
        · next hk => simp [hk, owner?]
      · rw [Function.update_of_ne hq, h.roster]
        split
        · next hk => simp [← hk, howner, Ne.symm hq]
        · rfl
  · exact h.reads rfl

theorem teardown (h : l.Matches p) (r : RegistryRef) :
    l.Alike (l.teardown r) (p.teardown 0 r) := by
  have hall : (p.roster r).toList.countP (fun key ↦ (p.index 0).contains key) =
      (l.owned r).length := by
    rw [h.toList_roster, List.countP_eq_length]
    intro key hkey
    obtain ⟨e, he, -⟩ := owner?_eq_some.mp (mem_owned.mp hkey)
    rw [h.contains_index, Std.ExtTreeMap.contains_eq_isSome_getElem?, he]
    rfl
  have hkept {k : Key} {e : Entry}
      (he : (l.buffers.filter fun _ e ↦ e.owner ≠ r)[k]? = some e) : l.buffers[k]? = some e := by
    rw [getElem?_filter_owner] at he
    split at he
    · cases he
    · exact he
  refine ⟨congrArg _ hall, ⟨h.limits, h.registries, h.nextId, ?_, fun q k ↦ ?_,
    fun k e he ↦ h.bytes k e (hkept he), h.born, fun k e he ↦ h.serial k e (hkept he)⟩, rfl, rfl⟩
  · apply Std.ExtTreeMap.ext_getElem?
    intro k
    simp only [Ideal.teardown, Ledger.teardown]
    rw [Function.update_self, Index.getElem?_without, h.toList_roster, h.getElem?_index,
      Std.ExtTreeMap.getElem?_map, getElem?_filter_owner]
    simp only [mem_owned]
    split <;> rfl
  · simp only [Ideal.teardown, Ledger.teardown, owner?]
    rw [getElem?_filter_owner]
    by_cases hq : q = r
    · subst hq
      rw [Function.update_self]
      split
      · simp [Roster.not_contains_drained]
      · next hnot => simpa [Roster.not_contains_drained, owner?] using hnot
    · rw [Function.update_of_ne hq, h.roster]
      split
      · next hk => simp [hk, Ne.symm hq]
      · rfl

theorem lookup (h : l.Matches p) (key : Key) (mode : Mode) :
    p.lookup 0 key mode = l.lookup key mode := by
  rw [Ideal.lookup, Ledger.lookup, h.getElem?_index]
  cases l.buffers[key]? <;> rfl

theorem inspect (h : l.Matches p) (question : Question) :
    question.answer (p.index 0) = l.inspect question := by
  cases question with
  | contains key => rw [Question.answer, Ledger.inspect, h.contains_index]
  | size => rw [Question.answer, Ledger.inspect, h.index, Std.ExtTreeMap.size_map]
  | keysOf s => rw [Question.answer, Ledger.inspect, Index.ofSession_eq, h.index,
      Std.ExtTreeMap.keys_map]

theorem read (h : l.Matches p) {action : RosterAction} (ho : l.read? r action = some o) :
    action.answer (p.sessionOf r) (p.roster r) = o ∧
      action.effect (p.sessionOf r) (p.roster r) = p.roster r := by
  have hcontains (key : Key) : (p.roster r).contains key = decide (l.owner? key = some r) := by
    rw [Bool.eq_iff_iff, decide_eq_true_iff, h.roster]
  cases action with
  | add key | remove key | drain => cases ho
  | contains key | tryContains key =>
    cases ho
    exact ⟨congrArg _ (hcontains key), rfl⟩
  | keys =>
    cases ho
    exact ⟨congrArg _ (h.toList_roster r), rfl⟩
  | size =>
    cases ho
    exact ⟨congrArg _ ((p.roster r).length_toList.symm.trans
      (congrArg List.length (h.toList_roster r))), rfl⟩

/-- A registry is attached to both. -/
private theorem attach (h : l.Matches p) {a : Attachment} {capacity : UInt64}
    (ha : Request.isAtomic (.attach a) = true) (hc : l.capacity? a.purpose = some capacity) :
    l.Alike (l.attach supply a capacity) (p.effect supply b (.attach a)) := by
  simp only [Ideal.effect, Ledger.attach, h.capacityFor hc]
  split
  · have hnext : Matches { l with registries := l.registries.push a.session }
        { p with sessions := p.sessions.push a.session } :=
      ⟨h.limits, congrArg (·.push a.session) h.registries, h.nextId, h.index, h.roster, h.bytes,
        h.born, h.serial⟩
    obtain ⟨session, purpose⟩ := a
    cases purpose with
    | alone capacity | table t => exact ⟨by rw [h.registries], hnext, rfl, rfl⟩
    | session t => cases ha
  · exact h.reads rfl

/-- What takes effect at one moment is answered alike. -/
theorem effect (h : l.Matches p) (ha : request.isAtomic = true)
    (hask : l.ask? supply request = some (o, l'))
    (hb : b ∈ (p.effect supply b request).2.born → b = l.made) :
    l.Alike (o, l') (p.effect supply b request) := by
  cases request with
  | attach a =>
    obtain ⟨capacity, hc, he⟩ := Option.map_eq_some_iff.mp hask
    exact he ▸ h.attach ha hc
  | allocate t r user kernel =>
    obtain _ | t := t
    · obtain ⟨session, hr, he⟩ := Option.map_eq_some_iff.mp hask
      exact he ▸ h.allocate hr hb
    · cases hask
  | free t r id =>
    obtain _ | t := t
    · obtain ⟨session, hr, he⟩ := Option.map_eq_some_iff.mp hask
      exact he ▸ h.free hr id
    · cases hask
  | teardown t r =>
    obtain _ | t := t
    · obtain ⟨session, -, he⟩ := Option.map_eq_some_iff.mp hask
      exact he ▸ h.teardown r
    · cases hask
  | endSession c | access handle mode => cases ha
  | lookup t key mode =>
    obtain _ | t := t
    · cases hask
      exact h.reads (h.lookup key mode)
    · cases hask
  | inspect t question =>
    obtain _ | t := t
    · cases hask
      exact h.reads (h.inspect question)
    · cases hask
  | roster r action =>
    simp only [ask?] at hask
    split at hask
    · obtain ⟨o, ho, he⟩ := Option.map_eq_some_iff.mp hask
      cases he
      obtain ⟨hanswer, hsame⟩ := h.read ho
      refine ⟨hanswer, ?_, rfl, rfl⟩
      rw [Ideal.effect, hsame, Function.update_eq_self]
      exact h
    · cases hask
  | draw t =>
    obtain _ | t := t
    · cases hask
      refine ⟨by rw [Ideal.effect, h.nextId], ⟨h.limits, h.registries, ?_, h.index, h.roster,
        h.bytes, h.born, h.serial⟩, rfl, rfl⟩
      simp [Ideal.effect, h.nextId]
    · cases hask

/-- The answers that calls have been given do not matter. -/
theorem after (h : l.Matches (p.effect supply b request).2) (i : CallRef) :
    l.Matches (p.after (.call i supply b request)) :=
  ⟨h.limits, h.registries, h.nextId, h.index, h.roster, h.bytes, h.born, h.serial⟩

end Matches

end Ledger

end SessionBuffers
