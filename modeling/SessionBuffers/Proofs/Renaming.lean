import SessionBuffers.Proofs.Ideal

/-!
# Other numbers for calls and storage

Calls and storages are numbered in the order in which they come up, so two runs that do the same in
another order do it with other numbers. `Ideal.Renamed` says that two ideal states are the same but
for these numbers; deeds that correspond keep it, and a deed that can be performed on one state can
be performed on the other.
-/

namespace SessionBuffers

open Function (update)

/-- The handle with its storage renamed. -/
def Handle.rename (ρ : StorageRef → StorageRef) (h : Handle) : Handle :=
  { h with storage := ρ h.storage }

/-- The guard with its storage renamed. -/
def Guard.rename (ρ : StorageRef → StorageRef) (g : Guard) : Guard :=
  { g with handle := g.handle.rename ρ }

/-- The outcome with its storage, if any, renamed. -/
def Outcome.rename (ρ : StorageRef → StorageRef) : Outcome → Outcome
  | .handle h => .handle (h.rename ρ)
  | .guard g => .guard (g.rename ρ)
  | o => o

/-- The storage that an outcome leads to. -/
def Outcome.storage? : Outcome → Option StorageRef
  | .handle h => some h.storage
  | .guard g => some g.handle.storage
  | _ => none

/-- The action with the calls that it is about renamed. -/
def Action.rename (f : CallRef → CallRef) : Action → Action
  | .step i => .step (f i)
  | .dropGuard i => .dropGuard (f i)
  | .edit i which e => .edit (f i) which e
  | .swap i j => .swap (f i) (f j)
  | action => action

/-- The index with every storage renamed. -/
def Index.rename (ρ : StorageRef → StorageRef) (index : Index) : Index := index.map fun _ b ↦ ρ b

variable {ρ τ : StorageRef → StorageRef} {made : List CallRef} {supply : Supply} {b c : StorageRef}
  {i : CallRef}

namespace Index

variable (index : Index)

@[simp] theorem getElem?_rename (key : Key) :
    (index.rename ρ)[key]? = index[key]?.map ρ := Std.ExtTreeMap.getElem?_map

@[simp] theorem contains_rename (key : Key) : (index.rename ρ).contains key = index.contains key :=
  Std.ExtTreeMap.contains_map

theorem rename_insert (key : Key) (b : StorageRef) :
    rename ρ (index.insert key b) = (index.rename ρ).insert key (ρ b) := by
  refine Std.ExtTreeMap.ext_getElem? fun k ↦ ?_
  rw [getElem?_rename, getElem?_insert, getElem?_insert, getElem?_rename]
  split <;> rfl

theorem rename_erase (key : Key) :
    rename ρ (index.erase key) = (index.rename ρ).erase key := by
  refine Std.ExtTreeMap.ext_getElem? fun k ↦ ?_
  rw [getElem?_rename, getElem?_erase, getElem?_erase, getElem?_rename]
  split <;> rfl

theorem rename_without (keys : List Key) :
    (index.without keys).rename ρ = (index.rename ρ).without keys := by
  refine Std.ExtTreeMap.ext_getElem? fun k ↦ ?_
  rw [getElem?_rename, getElem?_without, getElem?_without, getElem?_rename]
  split <;> rfl

/-- Only the storages that an index leads to matter for its renaming. -/
theorem rename_congr (h : ∀ (key : Key) (b : StorageRef), index[key]? = some b → ρ b = τ b) :
    index.rename ρ = index.rename τ := by
  refine Std.ExtTreeMap.ext_getElem? fun k ↦ ?_
  rw [getElem?_rename, getElem?_rename]
  exact Option.map_congr (h k)

end Index

theorem Question.answer_rename (index : Index) (question : Question) :
    question.answer (index.rename ρ) = question.answer index := by
  cases question with
  | contains key => simp [answer]
  | size => exact congrArg _ Std.ExtTreeMap.size_map
  | keysOf s =>
    rw [answer, answer, Index.ofSession, Index.ofSession, Index.between, Index.between]
    exact congrArg (fun keys ↦ Outcome.keys (List.takeWhile _ (List.dropWhile _ keys)))
      Std.ExtTreeMap.keys_map

theorem Outcome.rename_congr {o : Outcome} (h : ∀ b, o.storage? = some b → ρ b = τ b) :
    o.rename ρ = o.rename τ := by
  cases o <;> first | rfl | simp [rename, Guard.rename, Handle.rename, h _ rfl]

theorem Guard.rename_congr {g : Guard} (h : ρ g.handle.storage = τ g.handle.storage) :
    g.rename ρ = g.rename τ := by
  simp [rename, Handle.rename, h]

theorem Outcome.guard?_rename (o : Outcome) :
    (o.rename ρ).guard? = o.guard?.map (Guard.rename ρ) := by
  cases o <;> rfl

/-- An outcome that leads to no storage stays as it is. -/
theorem Outcome.rename_of_storage? {o : Outcome} (h : o.storage? = none) : o.rename ρ = o := by
  cases o <;> first | rfl | cases h

theorem RosterAction.storage?_answer (session : SessionId) (roster : Roster)
    (action : RosterAction) : (action.answer session roster).storage? = none := by
  cases action <;> try rfl
  simp only [answer]
  split <;> rfl

theorem Question.storage?_answer (index : Index) (question : Question) :
    (question.answer index).storage? = none := by
  cases question <;> rfl

namespace Ideal

/-- Whether an ideal state is another with its storages renamed; the calls of the other are those
that are listed, in this order. -/
structure Renamed (made : List CallRef) (ρ : StorageRef → StorageRef) (p q : Ideal) : Prop where
  limits : p.limits = q.limits
  sessions : p.sessions = q.sessions
  index : ∀ t, p.index t = (q.index t).rename ρ
  nextId : p.nextId = q.nextId
  roster : p.roster = q.roster
  content : ∀ b ∈ q.born, p.content (ρ b) = q.content b
  born : p.born = q.born.map ρ
  /-- No two storages have one name. -/
  nodup : p.born.Nodup
  indexed : ∀ {t : TableRef} {key : Key} {b : StorageRef}, (q.index t)[key]? = some b → b ∈ q.born
  guarded : ∀ {j : CallRef} {g : Guard}, q.guard j = some g →
    g.handle.storage ∈ q.born ∧ j < made.length
  named : ∀ {j : CallRef} {o : Outcome} {b : StorageRef}, q.answer j = some o →
    o.storage? = some b → b ∈ q.born
  guard : ∀ {j i : CallRef}, made[j]? = some i → p.guard i = (q.guard j).map (Guard.rename ρ)
  answer : ∀ {j i : CallRef}, made[j]? = some i →
    p.answer i = (q.answer j).map (Outcome.rename ρ)
  answered : ∀ {j : CallRef}, j < made.length → (q.answer j).isSome
  unmade : ∀ {i : CallRef}, i ∉ made → p.guard i = none ∧ p.answer i = none
  distinct : made.Nodup

variable {p q : Ideal} {request : Request} {action : Action}

theorem renamed_initial (limits : List Limits) :
    Renamed [] ρ (initial limits) (initial limits) where
  limits := rfl
  sessions := rfl
  index t := Std.ExtTreeMap.ext_getElem? fun k ↦ by simp [initial]
  nextId := rfl
  roster := rfl
  content _ _ := rfl
  born := rfl
  nodup := List.nodup_nil
  indexed h := by simp [initial] at h
  guarded h := by cases h
  named h := by cases h
  guard h := by cases h
  answer h := by cases h
  answered h := by cases h
  unmade _ := ⟨rfl, rfl⟩
  distinct := List.nodup_nil

namespace Renamed

/-- Different storages have different names. -/
theorem inj (hn : Renamed made ρ p q) (hb : b ∈ q.born) (hc : c ∈ q.born) (h : ρ b = ρ c) :
    b = c :=
  List.inj_on_of_nodup_map (hn.born ▸ hn.nodup) hb hc h

/-- Storage that has not been set up may be given any name. -/
theorem congr (hn : Renamed made ρ p q) (h : ∀ b ∈ q.born, ρ b = τ b) : Renamed made τ p q :=
  { hn with
    index := fun t ↦ (hn.index t).trans (Index.rename_congr _ fun _ b hb ↦ h b (hn.indexed hb))
    content := fun b hb ↦ h b hb ▸ hn.content b hb
    born := hn.born.trans (List.map_congr_left h)
    guard := fun hj ↦ (hn.guard hj).trans
      (Option.map_congr fun _ hg ↦ Guard.rename_congr (h _ (hn.guarded hg).1))
    answer := fun hj ↦ (hn.answer hj).trans
      (Option.map_congr fun _ ho ↦ Outcome.rename_congr fun _ hb ↦ h _ (hn.named ho hb)) }

/-! ### What can be performed -/

theorem admits (hn : Renamed made ρ p q) {mode : Mode} (h : p.Admits (ρ b) mode) :
    q.Admits b mode := by
  rintro j g hg rfl
  obtain ⟨-, hlt⟩ := hn.guarded hg
  exact h made[j] (g.rename ρ) (by simp [hn.guard (List.getElem?_eq_getElem hlt), hg]) rfl

theorem sessionOf (hn : Renamed made ρ p q) (r : RegistryRef) : p.sessionOf r = q.sessionOf r := by
  rw [Ideal.sessionOf, hn.sessions]
  rfl

theorem limitsOf (hn : Renamed made ρ p q) (t : TableRef) : p.limitsOf t = q.limitsOf t := by
  rw [Ideal.limitsOf, hn.limits]
  rfl

theorem capacityFor (hn : Renamed made ρ p q) (purpose : Purpose) :
    p.capacityFor purpose = q.capacityFor purpose := by
  cases purpose <;> simp [Ideal.capacityFor, hn.limitsOf]

theorem permits (hn : Renamed made ρ p q) (h : p.Permits request) : q.Permits request := by
  have hfound {t : TableRef} {key : Key} {b : StorageRef} (hb : (q.index t)[key]? = some b) :
      (p.index t)[key]? = some (ρ b) := by simp [hn.index, hb]
  cases request with
  | free t r id =>
    simp only [Permits, hn.roster, hn.sessionOf] at h ⊢
    exact fun hin b hb ↦ hn.admits (h hin _ (hfound hb))
  | teardown t r =>
    simp only [Permits, hn.roster] at h ⊢
    exact fun key b hin hb ↦ hn.admits (h key _ hin (hfound hb))
  | lookup t key mode => exact fun b hb ↦ hn.admits (h _ (hfound hb))
  | _ => trivial

theorem names (hn : Renamed made ρ p q) (h : p.Names request) : q.Names request := by
  cases request with
  | endSession r | access handle mode => exact h
  | _ => simpa only [Names, hn.limits, hn.sessions] using h

/-! ### Calls -/

/-- The storage of an allocation is set up. -/
private theorem provide (hn : Renamed made ρ p q) (hc : ρ c ∉ p.born) (user kernel : UInt64) :
    Renamed made ρ (p.provide user kernel (ρ c)) (q.provide user kernel c) :=
  { hn with
    content := fun d hd ↦ by
      obtain hd | hd := List.mem_append.mp hd
      · have hne : ρ d ≠ ρ c := fun h ↦ hc (h ▸ hn.born ▸ List.mem_map_of_mem hd)
        refine (Function.update_of_ne hne _ _).trans ((hn.content d hd).trans ?_)
        exact (Function.update_of_ne (fun h ↦ hne (congrArg ρ h)) _ _).symm
      · obtain rfl := List.mem_singleton.mp hd
        show update p.content (ρ d) _ (ρ d) = update q.content d _ d
        rw [Function.update_self, Function.update_self]
    born := by simp [Ideal.provide, hn.born]
    nodup := List.nodup_append.mpr ⟨hn.nodup, by simp, fun b hb d hd h ↦
      hc (List.mem_singleton.mp hd ▸ h ▸ hb)⟩
    indexed := fun h ↦ List.mem_append_left _ (hn.indexed h)
    guarded := fun h ↦ (hn.guarded h).imp_left (List.mem_append_left _)
    named := fun h ho ↦ List.mem_append_left _ (hn.named h ho) }

private theorem allocate (hn : Renamed made ρ p q) (hc : ρ c ∉ p.born) (t : TableRef)
    (r : RegistryRef) (user kernel : UInt64) :
    (p.allocate t r user kernel (ρ c)).1 = (q.allocate t r user kernel c).1.rename ρ ∧
      (∀ d, (q.allocate t r user kernel c).1.storage? = some d →
        d ∈ (q.allocate t r user kernel c).2.born) ∧
      Renamed made ρ (p.allocate t r user kernel (ρ c)).2 (q.allocate t r user kernel c).2 := by
  have hdrawn : Renamed made ρ
      { p.provide user kernel (ρ c) with
        nextId := update p.nextId t ⟨(p.nextId t).number + 1⟩ }
      { q.provide user kernel c with
        nextId := update q.nextId t ⟨(q.nextId t).number + 1⟩ } :=
    { hn.provide hc user kernel with nextId := by rw [hn.nextId] }
  have hcontains (key : Key) : (p.index t).contains key = (q.index t).contains key := by
    rw [hn.index, Index.contains_rename]
  simp only [Ideal.allocate, hn.sessionOf, hcontains]
  rw [show p.nextId t = q.nextId t from congrFun hn.nextId t] at hdrawn ⊢
  split
  · exact ⟨rfl, fun d hd ↦ by (cases hd), hdrawn⟩
  · refine ⟨rfl, fun d hd ↦ ?_, { hdrawn with index := fun u ↦ ?_, roster := ?_, indexed := ?_ }⟩
    · cases hd
      exact List.mem_concat_self
    · by_cases hu : u = t
      · subst hu
        simp [hn.index, Index.rename_insert]
      · simp [Function.update_of_ne hu, hn.index]
    · rw [hn.roster]
    · intro u key d hd
      by_cases hu : u = t
      · subst hu
        simp only [Function.update_self, Index.getElem?_insert] at hd
        split at hd
        · cases hd
          exact List.mem_concat_self
        · exact List.mem_append_left _ (hn.indexed hd)
      · simp only [Function.update_of_ne hu] at hd
        exact List.mem_append_left _ (hn.indexed hd)

/-- Keys leave a table and its roster. -/
private theorem leaves (hn : Renamed made ρ p q) (t : TableRef) (r : RegistryRef) (roster : Roster)
    {f : Index → Index} (hf : ∀ index, Index.rename ρ (f index) = f (index.rename ρ))
    (hsub : ∀ (index : Index) (key : Key) (b : StorageRef), (f index)[key]? = some b →
      index[key]? = some b) :
    Renamed made ρ
      { p with index := update p.index t (f (p.index t)), roster := update p.roster r roster }
      { q with index := update q.index t (f (q.index t)), roster := update q.roster r roster } :=
  { hn with
    index := fun u ↦ by
      by_cases hu : u = t
      · subst hu
        simp [hn.index, hf]
      · simp [Function.update_of_ne hu, hn.index]
    roster := by rw [hn.roster]
    indexed := fun {u key d} hd ↦ by
      by_cases hu : u = t
      · subst hu
        simp only [Function.update_self] at hd
        exact hn.indexed (hsub _ _ _ hd)
      · simp only [Function.update_of_ne hu] at hd
        exact hn.indexed hd }

private theorem free (hn : Renamed made ρ p q) (t : TableRef) (r : RegistryRef) (key : Key) :
    (p.free t r key).1 = (q.free t r key).1 ∧ (q.free t r key).1.storage? = none ∧
      Renamed made ρ (p.free t r key).2 (q.free t r key).2 := by
  simp only [Ideal.free, hn.index, hn.roster, Index.contains_rename]
  split
  · refine ⟨rfl, rfl, ?_⟩
    have hleaves := hn.leaves t r ((q.roster r).remove key)
      (fun index ↦ index.rename_erase key) fun index k b hb ↦ ?_
    · simpa only [hn.index, hn.roster] using hleaves
    · rw [Index.getElem?_erase] at hb
      split at hb
      · cases hb
      · exact hb
  · exact ⟨rfl, rfl, hn⟩

private theorem teardown (hn : Renamed made ρ p q) (t : TableRef) (r : RegistryRef) :
    (p.teardown t r).1 = (q.teardown t r).1 ∧ (q.teardown t r).1.storage? = none ∧
      Renamed made ρ (p.teardown t r).2 (q.teardown t r).2 := by
  simp only [Ideal.teardown, hn.index, hn.roster, Index.contains_rename]
  refine ⟨trivial, rfl, ?_⟩
  have hleaves := hn.leaves t r (q.roster r).drained.close
    (fun index ↦ index.rename_without (q.roster r).toList) fun index k b hb ↦ ?_
  · simpa only [hn.index, hn.roster] using hleaves
  · rw [Index.getElem?_without] at hb
    split at hb
    · cases hb
    · exact hb

/-- What a request is answered, and what it makes of the state. -/
private theorem effect (hn : Renamed made ρ p q) (hc : ρ c ∉ p.born) (supply : Supply)
    (request : Request) :
    (p.effect supply (ρ c) request).1 = (q.effect supply c request).1.rename ρ ∧
      (∀ d, (q.effect supply c request).1.storage? = some d →
        d ∈ (q.effect supply c request).2.born) ∧
      Renamed made ρ (p.effect supply (ρ c) request).2 (q.effect supply c request).2 := by
  cases request with
  | attach a =>
    simp only [Ideal.effect, hn.capacityFor]
    split
    · refine ⟨?_, fun d hd ↦ by (cases hd), { hn with sessions := ?_ }⟩
      · rw [hn.sessions]
        rfl
      · rw [hn.sessions]
    · exact ⟨rfl, fun d hd ↦ by (cases hd), hn⟩
  | allocate t r user kernel =>
    simp only [Ideal.effect, hn.limitsOf]
    split
    · split
      · exact hn.allocate hc t r user kernel
      · exact ⟨rfl, fun d hd ↦ by (cases hd), hn.provide hc user kernel⟩
    · exact ⟨rfl, fun d hd ↦ by (cases hd), hn⟩
  | free t r id =>
    simp only [Ideal.effect, hn.sessionOf]
    obtain ⟨ho, hnone, hn⟩ := hn.free t r ⟨q.sessionOf r, id⟩
    exact ⟨by rw [ho, Outcome.rename_of_storage? hnone], by simp [hnone], hn⟩
  | teardown t r =>
    obtain ⟨ho, hnone, hn⟩ := hn.teardown t r
    exact ⟨by simp only [Ideal.effect, ho, Outcome.rename_of_storage? hnone],
      by simp [Ideal.effect, hnone], hn⟩
  | lookup t key mode =>
    simp only [Ideal.effect, Ideal.lookup, hn.index, Index.getElem?_rename]
    cases hb : (q.index t)[key]? with
    | none => exact ⟨rfl, fun d hd ↦ by (cases hd), hn⟩
    | some b =>
      refine ⟨rfl, fun d hd ↦ ?_, hn⟩
      cases hd
      exact hn.indexed hb
  | inspect t question =>
    simp only [Ideal.effect, hn.index, Question.answer_rename]
    have hnone := question.storage?_answer (q.index t)
    exact ⟨(Outcome.rename_of_storage? hnone).symm, by simp [hnone], hn⟩
  | roster r action =>
    simp only [Ideal.effect, hn.sessionOf, hn.roster]
    have hnone := action.storage?_answer (q.sessionOf r) (q.roster r)
    exact ⟨(Outcome.rename_of_storage? hnone).symm, by simp [hnone], { hn with roster := rfl }⟩
  | draw t =>
    simp only [Ideal.effect, hn.nextId]
    exact ⟨rfl, fun d hd ↦ by (cases hd), { hn with nextId := rfl }⟩
  | endSession r | access handle mode => exact ⟨rfl, fun d hd ↦ by (cases hd), hn⟩

/-- Only calls that have not been answered yet are still to be made. -/
theorem not_made (hn : Renamed made ρ p q) (h : p.answer i = none) : i ∉ made := by
  intro hi
  obtain ⟨j, hj⟩ := List.mem_iff_getElem?.mp hi
  obtain ⟨hlt, -⟩ := List.getElem?_eq_some_iff.mp hj
  have hanswer := hn.answer hj
  rw [h] at hanswer
  have hsome := hn.answered hlt
  rw [Option.map_eq_none_iff.mp hanswer.symm] at hsome
  cases hsome

/-- A call is made on both states, and given its answer. -/
theorem call (hn : Renamed made ρ p q) (hi : p.answer i = none) (hb : b ∉ p.born)
    (hc : c ∉ q.born) (supply : Supply) (request : Request) :
    Renamed (made ++ [i]) (update ρ c b) (p.after (.call i supply b request))
      (q.after (.call made.length supply c request)) := by
  have hnot := hn.not_made hi
  have hn : Renamed made (update ρ c b) p q := hn.congr fun d hd ↦ by
    rw [Function.update_of_ne]
    rintro rfl
    exact hc hd
  obtain ⟨ho, hstorage, hn⟩ := hn.effect (by rwa [Function.update_self]) supply request
  rw [Function.update_self] at ho hn
  simp only [after]
  rw [ho]
  have hcases {j k : CallRef} (hj : (made ++ [i])[j]? = some k) :
      made[j]? = some k ∧ j ≠ made.length ∧ k ≠ i ∨ j = made.length ∧ k = i := by
    rw [List.getElem?_append] at hj
    split at hj
    · next hlt =>
      exact .inl ⟨hj, Nat.ne_of_lt hlt, fun h ↦ hnot (h ▸ List.mem_of_getElem? hj)⟩
    · next hle =>
      obtain ⟨hlt, he⟩ := List.getElem?_eq_some_iff.mp hj
      have hle' := Nat.le_of_sub_eq_zero (Nat.lt_one_iff.mp hlt)
      exact .inr ⟨Nat.le_antisymm hle' (Nat.le_of_not_lt hle), by simpa using he.symm⟩
  refine { hn with
    guarded := fun {j g} hg ↦ ?_
    named := fun {j o d} hj hd ↦ ?_
    guard := fun {j k} hj ↦ ?_
    answer := fun {j k} hj ↦ ?_
    answered := fun {j} hj ↦ ?_
    unmade := fun {k} hk ↦ ?_
    distinct := List.nodup_append.mpr ⟨hn.distinct, by simp, fun k hk l hl h ↦
      hnot (List.mem_singleton.mp hl ▸ h ▸ hk)⟩ }
  · simp only [Ideal.answered] at hg
    by_cases hj : j = made.length
    · rw [hj, Function.update_self] at hg
      refine ⟨hstorage _ ?_, by simp [hj]⟩
      cases ho' : (q.effect supply c request).1 <;> rw [ho'] at hg <;> cases hg
      rfl
    · rw [Function.update_of_ne hj] at hg
      exact (hn.guarded hg).imp_right fun h ↦ by simpa using Nat.lt_succ_of_lt h
  · simp only [Ideal.answered] at hj
    by_cases hjl : j = made.length
    · rw [hjl, Function.update_self] at hj
      cases hj
      exact hstorage d hd
    · rw [Function.update_of_ne hjl] at hj
      exact hn.named hj hd
  · simp only [Ideal.answered]
    obtain ⟨hj, hjl, hki⟩ | ⟨rfl, rfl⟩ := hcases hj
    · rw [Function.update_of_ne hjl, Function.update_of_ne hki, hn.guard hj]
    · rw [Function.update_self, Function.update_self, Outcome.guard?_rename]
  · simp only [Ideal.answered]
    obtain ⟨hj, hjl, hki⟩ | ⟨rfl, rfl⟩ := hcases hj
    · rw [Function.update_of_ne hjl, Function.update_of_ne hki, hn.answer hj]
    · rw [Function.update_self, Function.update_self, Option.map_some]
  · simp only [Ideal.answered]
    by_cases hjl : j = made.length
    · simp [hjl]
    · rw [Function.update_of_ne hjl]
      rw [List.length_append] at hj
      exact hn.answered (Nat.lt_of_le_of_ne (Nat.le_of_lt_succ hj) hjl)
  · simp only [List.mem_append, List.mem_singleton, not_or] at hk
    simp only [Ideal.answered, Function.update_of_ne hk.2]
    exact hn.unmade hk.1

/-! ### What clients do at once -/

/-- A guard of a call is a guard of the call that corresponds. -/
theorem guard_idxOf (hn : Renamed made ρ p q) {g : Guard} (hg : p.guard i = some g) :
    made[made.idxOf i]? = some i ∧ ∃ g', q.guard (made.idxOf i) = some g' ∧ g = g'.rename ρ := by
  have hi : i ∈ made := by
    by_contra hnot
    rw [(hn.unmade hnot).1] at hg
    cases hg
  have hj : made[made.idxOf i]? = some i := by
    rw [List.getElem?_eq_getElem (List.idxOf_lt_length_of_mem hi), List.getElem_idxOf]
  refine ⟨hj, ?_⟩
  rw [hn.guard hj] at hg
  obtain ⟨g', hg', rfl⟩ := Option.map_eq_some_iff.mp hg
  exact ⟨g', hg', rfl⟩

private theorem drop (hn : Renamed made ρ p q) (hready : p.Ready (.act (.dropGuard i))) :
    q.Ready (.act (.dropGuard (made.idxOf i))) ∧ Renamed made ρ (p.after (.act (.dropGuard i)))
      (q.after (.act (.dropGuard (made.idxOf i)))) := by
  obtain ⟨g, hg⟩ := Option.isSome_iff_exists.mp hready
  obtain ⟨hi, g', hg', -⟩ := hn.guard_idxOf hg
  obtain ⟨hlt, -⟩ := List.getElem?_eq_some_iff.mp hi
  simp only [after]
  refine ⟨by simp [Ready, hg'], { hn with
    guarded := fun {k g} hk ↦ ?_
    guard := fun {k l} hk ↦ ?_
    unmade := fun {l} hl ↦ ?_ }⟩
  · dsimp only at hk
    by_cases he : k = made.idxOf i
    · rw [he, Function.update_self] at hk
      cases hk
    · rw [Function.update_of_ne he] at hk
      exact hn.guarded hk
  · dsimp only
    by_cases he : k = made.idxOf i
    · subst he
      obtain rfl : i = l := Option.some.inj (hi.symm.trans hk)
      rw [Function.update_self, Function.update_self]
      rfl
    · have hne : l ≠ i := by
        rintro rfl
        exact he ((List.getElem?_inj hlt hn.distinct).mp (hi.trans hk.symm)).symm
      rw [Function.update_of_ne he, Function.update_of_ne hne, hn.guard hk]
  · refine ⟨?_, (hn.unmade hl).2⟩
    dsimp only
    rw [Function.update_of_ne, (hn.unmade hl).1]
    rintro rfl
    exact hl (List.mem_of_getElem? hi)

private theorem edit (hn : Renamed made ρ p q) {which : Side} {e : Region.Edit}
    (hready : p.Ready (.act (.edit i which e))) :
    q.Ready (.act (.edit (made.idxOf i) which e)) ∧
      Renamed made ρ (p.after (.act (.edit i which e)))
        (q.after (.act (.edit (made.idxOf i) which e))) := by
  obtain ⟨g, hg, hmode, hedit⟩ := hready
  obtain ⟨-, g', hg', rfl⟩ := hn.guard_idxOf hg
  have hb := (hn.guarded hg').1
  have hsame : p.content (ρ g'.handle.storage) = q.content g'.handle.storage := hn.content _ hb
  have hedit : ((q.content g'.handle.storage).edit? which e).isSome := hsame ▸ hedit
  refine ⟨⟨g', hg', hmode, hedit⟩, ?_⟩
  obtain ⟨c, hc⟩ := Option.isSome_iff_exists.mp hedit
  have hc' : (p.content (g'.rename ρ).handle.storage).edit? which e = some c := hsame ▸ hc
  simp only [after, hg, hg', edited, hc, hc']
  refine { hn with content := fun d hd ↦ ?_ }
  show update p.content (ρ g'.handle.storage) c (ρ d) = update q.content g'.handle.storage c d
  by_cases he : d = g'.handle.storage
  · rw [he, Function.update_self, Function.update_self]
  · rw [Function.update_of_ne he, Function.update_of_ne fun h ↦ he (hn.inj hd hb h),
      hn.content d hd]

private theorem swap (hn : Renamed made ρ p q) {j : CallRef}
    (hready : p.Ready (.act (.swap i j))) :
    q.Ready (.act (.swap (made.idxOf i) (made.idxOf j))) ∧
      Renamed made ρ (p.after (.act (.swap i j)))
        (q.after (.act (.swap (made.idxOf i) (made.idxOf j)))) := by
  obtain ⟨g, f, hg, hf, hne, hmode, hmode'⟩ := hready
  obtain ⟨hi, g', hg', rfl⟩ := hn.guard_idxOf hg
  obtain ⟨hj, f', hf', rfl⟩ := hn.guard_idxOf hf
  have hne' : made.idxOf i ≠ made.idxOf j := by
    intro he
    rw [he] at hi
    exact hne (Option.some.inj (hi.symm.trans hj))
  have hb := (hn.guarded hg').1
  have hb' := (hn.guarded hf').1
  refine ⟨⟨g', f', hg', hf', hne', hmode, hmode'⟩, ?_⟩
  simp only [after, hg, hf, hg', hf', swapped]
  refine { hn with content := fun d hd ↦ ?_ }
  show p.content (Equiv.swap (ρ g'.handle.storage) (ρ f'.handle.storage) (ρ d)) =
    q.content (Equiv.swap g'.handle.storage f'.handle.storage d)
  rcases eq_or_ne d g'.handle.storage with rfl | hdg
  · rw [Equiv.swap_apply_left, Equiv.swap_apply_left, hn.content _ hb']
  rcases eq_or_ne d f'.handle.storage with rfl | hdf
  · rw [Equiv.swap_apply_right, Equiv.swap_apply_right, hn.content _ hb]
  · rw [Equiv.swap_apply_of_ne_of_ne hdg hdf, Equiv.swap_apply_of_ne_of_ne
      (fun he ↦ hdg (hn.inj hd hb he)) (fun he ↦ hdf (hn.inj hd hb' he)), hn.content d hd]

/-- What can be done to one state at once can be done to the other, to the calls that
correspond. -/
theorem act (hn : Renamed made ρ p q) (hready : p.Ready (.act action)) :
    q.Ready (.act (action.rename made.idxOf)) ∧
      Renamed made ρ (p.after (.act action)) (q.after (.act (action.rename made.idxOf))) := by
  have htable {t : TableRef} (ht : t < p.limits.size) : t < q.limits.size := hn.limits ▸ ht
  cases action with
  | invoke request | step i => exact hready.elim
  | dropGuard i => exact hn.drop hready
  | edit i which e => exact hn.edit hready
  | swap i j => exact hn.swap hready
  | setNextId t id =>
    refine ⟨htable hready, ?_⟩
    simp only [after, Action.rename, hn.nextId]
    exact { hn with nextId := rfl }
  | resetCounters t | count t which amount => exact ⟨htable hready, hn⟩

end Renamed

end Ideal

end SessionBuffers
