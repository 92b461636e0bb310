import Mathlib.Algebra.BigOperators.Group.List.Basic
import Mathlib.Algebra.Group.End
import SessionBuffers.Proofs.Sound

/-!
# Where content comes from

A client with two guards for writing can swap what is under them, so content need not stay in the
storage it was set up in. `Service.swaps` lists the pairs of storages whose contents a history
swaps, and `Service.origin` follows the swaps back to where the content was before the first of
them. What stays with content through all swaps are its sizes: they are those of the allocation that
has set up its origin (`Service.Descends`).
-/

namespace SessionBuffers

/-- Whether content has the sizes an allocation asked for. -/
def Allocation.Sizes (a : Allocation) (c : Content) : Prop :=
  c.user.size = a.user.toNat ∧ c.kernel.size = a.kernel.toNat

theorem Allocation.sizes_zeroed (a : Allocation) : a.Sizes (.zeroed a.user a.kernel) :=
  ⟨Region.size_replicate .., Region.size_replicate ..⟩

/-- An edit of one region keeps the sizes of both. -/
theorem Allocation.Sizes.setSide {a : Allocation} {c : Content} {which : Side} {e : Region.Edit}
    {region : Region} (h : a.Sizes c) (he : (c.side which).edit? e = some region) :
    a.Sizes (c.setSide which region) := by
  cases which with
  | user => exact ⟨(Region.size_edit? he).trans h.1, h.2⟩
  | kernel => exact ⟨h.1, (Region.size_edit? he).trans h.2⟩

namespace Service

variable {limits : List Limits} {supply : Supply} {s s' : Service} {action : Action} {h : History}
  {i : CallRef} {a : Allocation} {b : StorageRef} {pairs : List (StorageRef × StorageRef)}

/-! ### Swaps -/

/-- The two storages whose contents an action swaps. -/
def swapped? (s : Service) : Action → Option (StorageRef × StorageRef)
  | .swap i j => do
    let g ← s.guard? i
    let f ← s.guard? j
    return (g.handle.storage, f.handle.storage)
  | _ => none

/-- The pairs of storages whose contents are swapped in a history, in order. -/
def swaps (s : Service) (h : History) : List (StorageRef × StorageRef) :=
  s.collected swapped? h

/-- The storage in which content was before the contents of these pairs of storages were swapped in
order, by the storage in which it is afterwards. -/
def origin (pairs : List (StorageRef × StorageRef)) : Equiv.Perm StorageRef :=
  (pairs.map fun p ↦ Equiv.swap p.1 p.2).prod

theorem swaps_cons (hact : s.act? supply action = some s') :
    s.swaps ((supply, action) :: h) = (s.swapped? action).toList ++ s'.swaps h :=
  collected_cons hact

/-- Where no client swaps, no content comes to be in other storage. -/
theorem swaps_eq_nil (hr : s.run? h = some s') (hno : ∀ e ∈ h, ∀ i j, e.2 ≠ .swap i j) :
    s.swaps h = [] := by
  induction h generalizing s with
  | nil => rfl
  | cons e h ih =>
    obtain ⟨-, u, hu, hr⟩ := run?_cons_eq_some.mp hr
    have hnone : s.swapped? e.2 = none := by
      unfold swapped?
      split
      · next i j he => exact absurd he (hno e List.mem_cons_self i j)
      · rfl
    rw [swaps_cons hu, hnone, ih hr fun e he ↦ hno e (List.mem_cons_of_mem _ he)]
    rfl

theorem origin_append (pairs more : List (StorageRef × StorageRef)) (b : StorageRef) :
    origin (pairs ++ more) b = origin pairs (origin more b) := by
  simp [origin]

/-- Swaps lead nowhere but where they agree: what holds of both or neither storage of every pair
holds of the origin exactly when it holds of the storage itself. -/
theorem origin_iff {P : StorageRef → Prop} (hp : ∀ p ∈ pairs, P p.1 ↔ P p.2) (b : StorageRef) :
    P (origin pairs b) ↔ P b := by
  induction pairs with
  | nil => rfl
  | cons p pairs ih =>
    have hfirst : P p.1 ↔ P p.2 := hp p List.mem_cons_self
    rw [← ih fun q hq ↦ hp q (List.mem_cons_of_mem p hq)]
    show P (Equiv.swap p.1 p.2 (origin pairs b)) ↔ P (origin pairs b)
    rw [Equiv.swap_apply_def]
    split_ifs with h1 h2
    · rw [h1, hfirst]
    · rw [h2, hfirst]
    · rfl

/-- Content that is never swapped stays where it is. -/
theorem origin_eq_self (hne : ∀ p ∈ pairs, p.1 ≠ b ∧ p.2 ≠ b) : origin pairs b = b :=
  (origin_iff (P := fun c ↦ c = b)
    (fun p hp ↦ iff_of_false (hne p hp).1 (hne p hp).2) b).mpr rfl

/-! ### Sizes -/

/-- Whether some allocation has handed out a storage. -/
def HandedOut (s : Service) (b : StorageRef) : Prop := ∃ a h, s.Keeps a h ∧ h.storage = b

/-- Whether the contents of a service descend from their origins, when these pairs of storages have
had theirs swapped. -/
structure Descends (s : Service) (pairs : List (StorageRef × StorageRef)) : Prop where
  /-- Contents are only swapped that have been handed out. -/
  handed : ∀ p ∈ pairs, s.HandedOut p.1 ∧ s.HandedOut p.2
  /-- Live content has the sizes asked for by the allocation that has set up its origin. -/
  sizes : ∀ {i : CallRef} {job : Job} {a : Allocation} {b : StorageRef}, s.job? i = some job →
    job.made? = some (a, origin pairs b) → (s.store.contentOf b).released = false →
      a.Sizes (s.store.contentOf b)

theorem Sound.has_of_made? (hs : s.Sound) {job : Job} (hj : s.job? i = some job)
    (hm : job.made? = some (a, b)) : s.store.Has (.content b) := by
  obtain ⟨call, hc, rfl⟩ := job?_eq_some.mp hj
  exact hs.made hc hm

theorem HandedOut.has (hb : s.HandedOut b) (hs : s.Sound) : s.store.Has (.content b) := by
  obtain ⟨a, h, ⟨i, call, hc, hk⟩, rfl⟩ := hb
  exact hs.made hc (Job.made?_of_kept? hk)

theorem HandedOut.of_does (hb : s.HandedOut b) (hs : s.Sound) (hd : s.Does supply action s') :
    s'.HandedOut b := by
  obtain ⟨a, h, hk, rfl⟩ := hb
  exact ⟨a, h, hk.of_does hs hd, rfl⟩

/-- The storage under a guard has been handed out. -/
theorem Sound.handedOut_of_guard? {g : Guard} (hs : s.Sound) (hg : s.guard? i = some g) :
    s.HandedOut g.handle.storage := by
  obtain ⟨a, hk⟩ := hs.keeps_of_guard? hg
  exact ⟨a, g.handle, hk, rfl⟩

/-- Storage that does not exist has never been swapped. -/
private theorem Descends.origin_of_not_has (ht : s.Descends pairs) (hs : s.Sound)
    (hb : ¬ s.store.Has (.content b)) : origin pairs b = b := by
  apply origin_eq_self
  intro p hp
  constructor
  · rintro rfl
    exact hb ((ht.handed p hp).1.has hs)
  · rintro rfl
    exact hb ((ht.handed p hp).2.has hs)

/-- A step of a call swaps nothing, and content that it sets up is in its origin. -/
private theorem Descends.step (ht : s.Descends pairs) (hs : s.Sound)
    (hd : s.Does supply (.step i) s') : s'.Descends pairs := by
  constructor
  case handed =>
    intro p hp
    exact ⟨(ht.handed p hp).1.of_does hs hd, (ht.handed p hp).2.of_does hs hd⟩
  case sizes =>
    intro j job a b hj hm hlive
    obtain ⟨call, instr, next, hcall, hn, hr, -⟩ := hd.calls_step
    have hi : s.job? i = some call.job := job?_eq_some.mpr ⟨call, hcall, rfl⟩
    obtain ⟨_, after, -, -, hi'⟩ := hd.job_step hi
    have hmoves := hs.moves hd hi hi'
    -- Who had set the origin up before the step asked for the sizes that are still there.
    have hold {other : Job} (ho : s.job? j = some other)
        (hmade : other.made? = some (a, origin pairs b)) : a.Sizes (s'.store.contentOf b) := by
      have hb : s.store.Has (.content b) := by
        by_contra hb
        rw [ht.origin_of_not_has hs hb] at hmade
        exact hb (hs.has_of_made? ho hmade)
      obtain hsame | ⟨-, -, -, -, hgone⟩ := hmoves.content hb
      · rw [hsame] at hlive ⊢
        exact ht.sizes ho hmade hlive
      · rw [hgone] at hlive
        cases hlive
    obtain ⟨rfl, rfl⟩ | ⟨-, ho⟩ := hd.job_of_step hi' hj
    · obtain hmade | ⟨hnew, -, hzeroed⟩ := hmoves.made hm
      · exact hold hi hmade
      · have hb := ht.origin_of_not_has hs hnew
        rw [(origin pairs).injective hb] at hzeroed
        rw [hzeroed]
        exact a.sizes_zeroed
    · exact hold ho hm

/-- An action that is no step makes live content of what was live content of the same sizes, where
the pair that it swaps tells to look for it. -/
private theorem Sound.sizes_of_does (hs : s.Sound) (hd : s.Does supply action s')
    (hne : ∀ i, action ≠ .step i) (b : StorageRef) :
    (s'.store.contentOf b).released =
        (s.store.contentOf (origin (s.swapped? action).toList b)).released ∧
      (a.Sizes (s.store.contentOf (origin (s.swapped? action).toList b)) →
        a.Sizes (s'.store.contentOf b)) := by
  cases hd with
  | @step i _ _ _ _ _ _ _ => exact absurd rfl (hne i)
  | invoke hj => exact ⟨rfl, id⟩
  | drop hc hg hb =>
    show (Store.contentOf _ b).released = (s.store.contentOf b).released ∧ _
    rw [Store.contentOf_setLock]
    exact ⟨rfl, id⟩
  | edit hw =>
    refine ⟨hs.released_of_writes hw b, fun hsizes ↦ ?_⟩
    cases hw with
    | edit hg hb hm he hl hc =>
      rw [hc]
      split
      · next hgb =>
        subst hgb
        exact hsizes.setSide he
      · exact hsizes
  | swap hw =>
    cases hw with
    | swap hne hg hf hb hd hm hn hl hc =>
      rw [hc]
      simp [swapped?, hg, hf, origin]
  | @tend action store hk ha =>
    have hnone : s.swapped? action = none := by
      cases action <;> first | rfl | cases hk
    rw [hnone, ha.content]
    exact ⟨rfl, id⟩

/-- Every action keeps track of the swaps. -/
theorem Descends.of_does (ht : s.Descends pairs) (hs : s.Sound) (hd : s.Does supply action s') :
    s'.Descends (pairs ++ (s.swapped? action).toList) := by
  by_cases hstep : ∃ i, action = .step i
  · obtain ⟨i, rfl⟩ := hstep
    show s'.Descends (pairs ++ [])
    rw [List.append_nil]
    exact ht.step hs hd
  have hne (i : CallRef) : action ≠ .step i := fun he ↦ hstep ⟨i, he⟩
  constructor
  case handed =>
    intro p hp
    rcases List.mem_append.mp hp with hp | hp
    · exact ⟨(ht.handed p hp).1.of_does hs hd, (ht.handed p hp).2.of_does hs hd⟩
    · rw [Option.mem_toList] at hp
      cases action with
      | swap i j =>
        obtain ⟨g, hg, f, hf, rfl⟩ : ∃ g, s.guard? i = some g ∧ ∃ f, s.guard? j = some f ∧
            (g.handle.storage, f.handle.storage) = p := by
          simpa [swapped?, Option.bind_eq_some_iff] using hp
        exact ⟨(hs.handedOut_of_guard? hg).of_does hs hd, (hs.handedOut_of_guard? hf).of_does hs hd⟩
      | _ => cases hp
  case sizes =>
    intro i job a b hj hm hlive
    rw [origin_append] at hm
    obtain ⟨hreleased, hsizes⟩ := hs.sizes_of_does (a := a) hd hne b
    rw [hreleased] at hlive
    obtain ⟨hold, -⟩ | ⟨request, -, hr, -⟩ | ⟨_, _, rfl, -⟩ := hd.job_cases hj
    · exact hsizes (ht.sizes hold hm hlive)
    · rw [(Job.idle_of_ofRequest? hr).2.1] at hm
      cases hm
    · exact absurd rfl (hne i)

/-- After every history the contents descend from their origins through its swaps. -/
theorem descends_of_run (hr : (withTables limits).run? h = some s) :
    s.Descends ((withTables limits).swaps h) := by
  suffices hall : ∀ base pairs, Reachable limits base → base.Descends pairs →
      base.run? h = some s → s.Descends (pairs ++ base.swaps h) by
    refine hall _ [] ⟨[], rfl⟩ ⟨by simp, ?_⟩ hr
    intro i job a b hj
    simp [job?, withTables] at hj
  clear hr
  induction h with
  | nil =>
    intro base pairs _ ht hr
    cases hr
    rwa [swaps, collected_nil, List.append_nil]
  | cons e h ih =>
    intro base pairs hbase ht hr
    obtain ⟨ha, u, hu, hr⟩ := run?_cons_eq_some.mp hr
    rw [swaps_cons hu, ← List.append_assoc]
    exact ih u _ (hbase.act ha hu) (ht.of_does hbase.sound (does_of_act? hu)) hr

/-! ### Content in use -/

/-- Whether content has the sizes asked for by the allocation that has handed out its origin. -/
def Sized (s : Service) (pairs : List (StorageRef × StorageRef)) (b : StorageRef) : Prop :=
  ∃ a h, s.Keeps a h ∧ h.storage = origin pairs b ∧ a.Sizes (s.store.contentOf b)

/-- Live content that has been handed out is of the sizes of its origin. -/
theorem Descends.sized (ht : s.Descends pairs) (hb : s.HandedOut b)
    (hlive : (s.store.contentOf b).released = false) : s.Sized pairs b := by
  have horigin : s.HandedOut (origin pairs b) :=
    (origin_iff (fun p hp ↦ iff_of_true (ht.handed p hp).1 (ht.handed p hp).2) b).mpr hb
  obtain ⟨a, h, hk, he⟩ := horigin
  obtain ⟨i, call, hc, hkept⟩ := id hk
  have hmade := Job.made?_of_kept? hkept
  rw [he] at hmade
  exact ⟨a, h, hk, he, ht.sizes (job?_eq_some.mpr ⟨call, hc, rfl⟩) hmade hlive⟩

/-- Live content that is in its origin has the sizes asked for by its own allocation. -/
theorem Descends.sizes_of_keeps {g : Handle} (ht : s.Descends pairs) (hk : s.Keeps a g)
    (hb : origin pairs g.storage = g.storage)
    (hlive : (s.store.contentOf g.storage).released = false) :
    a.Sizes (s.store.contentOf g.storage) := by
  obtain ⟨i, call, hc, hkept⟩ := hk
  have hmade := Job.made?_of_kept? hkept
  rw [← hb] at hmade
  exact ht.sizes (job?_eq_some.mpr ⟨call, hc, rfl⟩) hmade hlive

end Service

end SessionBuffers
