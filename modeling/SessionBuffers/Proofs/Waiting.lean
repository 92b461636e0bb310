import Mathlib.Data.Fintype.Card
import Mathlib.Data.Set.Finite.Basic
import Mathlib.Logic.Relation
import Mathlib.Order.WellFounded
import SessionBuffers.Proofs.Scope

/-!
# Who waits for whom

Locks are taken in one order, registries before tables before content, but for the content an
allocation has just set up, which nobody else can want yet. So a call that holds a lock either can
make its next step, or waits for a lock that comes later in the order, or is the guard of a client;
and whatever order waiting calls are served in, a service in which nothing can move is one in which
everybody waits for a client to drop a guard (`stuck_only_by_guards`).
-/

namespace SessionBuffers

/-! ### The order of locks -/

/-- The place of a lock in the order in which locks are taken. -/
def LockName.rank : LockName → Nat
  | .registry _ => 0
  | .table _ => 1
  | .content _ => 2

theorem LockName.rank_le (name : LockName) : name.rank ≤ 2 := by
  cases name <;> simp [rank]

/-- A job that wants a lock holds only locks that come before it, but for the content of an
allocation that has not put it into the index. -/
theorem Job.rank_lt_of_wants {job : Job} {name other : LockName} {mode m : Mode}
    (hw : job.wants = some (name, mode)) (hh : (other, m) ∈ job.held) :
    other.rank < name.rank ∨ ∃ a b, other = .content b ∧ job.made? = some (a, b) ∧
      job.owned? = some b ∧ job.kept? = none := by
  unfold wants at hw
  split at hw
  · cases hw
  · next instr hn =>
    cases job <;> obtain ⟨step, hp, rfl⟩ := Progress.map_eq_next.mp hn <;>
      rw [Instr.wants_map] at hw
    case attaching a phase => simp [held] at hh
    case drawing d phase => simp [held] at hh
    case allocating a phase =>
      cases phase <;> cases hp <;> cases hw <;> simp [held, Allocation.held] at hh
      · exact .inr ⟨a, _, hh.1, rfl, rfl, rfl⟩
      · obtain ⟨rfl, -⟩ | ⟨rfl, -⟩ := hh
        · exact .inl (by simp [LockName.rank])
        · exact .inr ⟨a, _, rfl, rfl, rfl, rfl⟩
    case freeing f phase =>
      cases phase <;> cases hp <;> cases hw <;> simp [held, Removal.held] at hh
      · obtain ⟨rfl, -⟩ := hh
        exact .inl (by simp [LockName.rank])
      · obtain ⟨rfl, -⟩ | ⟨rfl, -⟩ := hh <;> exact .inl (by simp [LockName.rank])
    case tearingDown d phase =>
      cases phase <;> cases hp <;> cases hw <;> simp [held, Teardown.held] at hh
      · obtain ⟨rfl, -⟩ := hh
        exact .inl (by simp [LockName.rank])
      · obtain ⟨rfl, -⟩ | ⟨rfl, -⟩ := hh <;> exact .inl (by simp [LockName.rank])
    case lookingUp l phase =>
      cases phase <;> cases hp <;> cases hw <;> simp [held, Lookup.held] at hh
      obtain ⟨rfl, -⟩ := hh
      exact .inl (by simp [LockName.rank])
    case accessing a phase =>
      cases phase <;> cases hp <;> cases hw
      simp [held, Access.held] at hh
    case inspecting i phase =>
      cases phase <;> cases hp <;> cases hw
      simp [held, Inspection.held] at hh
    case editing c phase =>
      cases phase with
      | act =>
        cases hp
        unfold RosterCall.act at hw
        split at hw <;> cases hw
      | lock =>
        cases hp
        cases hw
        simp [held, RosterCall.held] at hh
      | _ => cases hp <;> cases hw

/-- A job that wants content has set it up itself, has found it in an index, or was given it. -/
theorem Job.wanted_content {job : Job} {s : Store} {b : StorageRef} {mode : Mode}
    (hw : job.wants = some (.content b, mode)) (hk : job.Knows s) :
    (∃ a, job = .allocating a (.lockContent b)) ∨
    (∃ (t : TableRef) (key : Key), (s.indexOf t)[key]? = some b) ∨
    ∃ h, job.used? = some h ∧ h.storage = b := by
  unfold wants at hw
  split at hw
  · cases hw
  · next instr hn =>
    cases job <;> obtain ⟨step, hp, rfl⟩ := Progress.map_eq_next.mp hn <;>
      rw [Instr.wants_map] at hw
    case attaching a phase =>
      cases phase with
      | start =>
        simp only [Attachment.progress] at hp
        split at hp <;> cases hp <;> cases hw
      | _ => cases hp <;> cases hw
    case allocating a phase =>
      cases phase <;> cases hp <;> cases hw
      exact .inl ⟨a, rfl⟩
    case freeing f phase =>
      cases phase <;> cases hp <;> cases hw
      exact .inr (.inl ⟨f.table, f.key, hk.1⟩)
    case tearingDown d phase =>
      cases phase with
      | lockContent key c sweep =>
        cases hp
        cases hw
        exact .inr (.inl ⟨d.table, key, hk⟩)
      | _ => cases hp <;> cases hw
    case lookingUp l phase =>
      cases phase <;> cases hp <;> cases hw
      exact .inr (.inl ⟨l.table, l.key, hk⟩)
    case accessing a phase =>
      cases phase <;> cases hp <;> cases hw
      exact .inr (.inr ⟨a.handle, rfl, rfl⟩)
    case inspecting i phase => cases phase <;> cases hp <;> cases hw
    case editing c phase =>
      cases phase with
      | act =>
        cases hp
        unfold RosterCall.act at hw
        split at hw <;> cases hw
      | _ => cases hp <;> cases hw
    case drawing d phase =>
      cases phase <;> cases hp
      cases hw

namespace Service

variable {limits : List Limits} {s : Service} {i j : CallRef} {name : LockName} {mode m : Mode}

/-! ### Holders of a wanted lock -/

theorem wants_eq_some : s.wants i = some (name, mode) ↔
    ∃ call, s.calls[i]? = some call ∧ call.job.wants = some (name, mode) := by
  simp [wants, Option.bind_eq_some_iff]

theorem inFlight_iff : s.InFlight i ↔
    ∃ call instr, s.calls[i]? = some call ∧ call.job.progress = .next instr := by
  simp only [InFlight, job?, Option.map_eq_some_iff]
  constructor
  · rintro ⟨_, ⟨call, hc, rfl⟩, ho⟩
    cases hn : call.job.progress with
    | ended o => simp [Job.outcome?, hn] at ho
    | next instr => exact ⟨call, instr, hc, hn⟩
  · rintro ⟨call, instr, hc, hn⟩
    exact ⟨call.job, ⟨call, hc, rfl⟩, by simp [Job.outcome?, hn]⟩

/-- A call that waits for a lock is under way. -/
theorem inFlight_of_wants (h : s.wants i = some (name, mode)) : s.InFlight i := by
  obtain ⟨call, hc, hw⟩ := wants_eq_some.mp h
  unfold Job.wants at hw
  split at hw
  · cases hw
  · next instr hn => exact inFlight_iff.mpr ⟨call, instr, hc, hn⟩

/-- Content that somebody wants is owned by nobody else that holds it and waits. -/
private theorem Sound.not_made_of_wanted (hs : s.Sound) {b : StorageRef}
    (hi : s.wants i = some (.content b, mode)) {call : Call} {a : Allocation}
    (hj : s.calls[j]? = some call) (hm : call.job.made? = some (a, b))
    (ho : call.job.owned? = some b) (hk : call.job.kept? = none)
    (hh : (.content b, m) ∈ call.job.held) : False := by
  obtain ⟨other, hc, hw⟩ := wants_eq_some.mp hi
  obtain ⟨a', he⟩ | ⟨t, key, hb⟩ | ⟨h, hu, rfl⟩ := Job.wanted_content hw (hs.knows hc)
  · -- The storage was set up by one call only, and that call does not hold it yet.
    obtain rfl := hs.maker_unique hc hj (by rw [he]; rfl) hm
    cases hc.symm.trans hj
    rw [he] at hh
    simp [Job.held, Allocation.held] at hh
  · exact (hs.owned hj ho).2 t key hb
  · obtain ⟨a', k, maker, hkc, hkept⟩ := hs.used hc hu
    have hmade : maker.job.made? = some (a', h.storage) := Job.made?_of_kept? hkept
    obtain rfl := hs.maker_unique hkc hj hmade hm
    cases hkc.symm.trans hj
    rw [hk] at hkept
    cases hkept

/-- A call that holds a lock somebody wants is a guard on that content, or is under way and wants
at most locks that come later. -/
theorem Sound.holder (hs : s.Sound) (hi : s.wants i = some (name, mode)) (hj : s.Holds j name m) :
    (∃ g, s.guard? j = some g ∧ name = .content g.handle.storage) ∨
    s.InFlight j ∧ ∀ other md, s.wants j = some (other, md) → name.rank < other.rank := by
  obtain ⟨call, hc, hheld⟩ := hj
  cases hd : call.dropped with
  | true => simp [Call.held, hd] at hheld
  | false =>
    simp only [Call.held, hd, Bool.false_eq_true, if_false] at hheld
    cases ho : call.job.outcome? with
    | some o =>
      obtain ⟨g, rfl, hn, -⟩ := Job.held_of_outcome? ho name m hheld
      exact .inl ⟨g, guard?_eq_some.mpr ⟨call, hc, Call.guard?_eq_some.mpr ⟨hd, ho⟩⟩, hn⟩
    | none =>
      refine .inr ⟨⟨call.job, by simp [job?, hc], ho⟩, fun other md hw ↦ ?_⟩
      obtain ⟨c, hc', hw⟩ := wants_eq_some.mp hw
      cases hc.symm.trans hc'
      obtain hlt | ⟨a, b, rfl, hm, hown, hk⟩ := Job.rank_lt_of_wants hw hheld
      · exact hlt
      · exact (hs.not_made_of_wanted hi hc hm hown hk hheld).elim

/-- A call that holds content which somebody wants is a guard on it or can take a step: content is
locked last. -/
theorem Reachable.content_holder (hr : Reachable limits s) {b : StorageRef}
    (hi : s.wants i = some (.content b, mode)) (hj : s.Holds j (.content b) m) (supply : Supply) :
    (∃ g, s.guard? j = some g ∧ g.handle.storage = b) ∨ (s.step? supply j).isSome := by
  obtain ⟨g, hg, hb⟩ | ⟨hflight, hlater⟩ := hr.sound.holder hi hj
  · cases hb
    exact .inl ⟨g, hg, rfl⟩
  · obtain ⟨call, instr, hc, hn⟩ := inFlight_iff.mp hflight
    refine .inr ?_
    rw [hr.isSome_step? hc hn]
    cases hw : instr.wants with
    | none => rfl
    | some w =>
      have hlt : 2 < w.1.rank := hlater w.1 w.2 (by simp [wants, hc, Job.wants, hn, hw])
      have hle := w.1.rank_le
      omega

/-! ### Queues -/

/-- Whether a relation can tell who is queued ahead of whom: only calls that want the same lock are,
and nobody is ahead of itself, not even in a roundabout way. Nothing else is asked of the order in
which waiting calls are served. -/
structure Queueing (s : Service) (ahead : CallRef → CallRef → Prop) : Prop where
  same : ∀ {i j : CallRef}, ahead i j →
    ∃ name mode md, s.wants i = some (name, mode) ∧ s.wants j = some (name, md)
  acyclic : ∀ i, ¬ Relation.TransGen ahead i i

/-- Whether a call can take its next step: its lock has room, and nobody is queued ahead. -/
def CanGo (s : Service) (supply : Supply) (ahead : CallRef → CallRef → Prop) (i : CallRef) : Prop :=
  (s.step? supply i).isSome ∧ ∀ j, ¬ ahead i j

/-- Whether a call waits for another one under way, which holds the lock that the first wants or is
queued ahead for it. -/
def WaitsFor (s : Service) (ahead : CallRef → CallRef → Prop) (i j : CallRef) : Prop :=
  s.InFlight j ∧ ((∃ name mode m, s.wants i = some (name, mode) ∧ s.Holds j name m) ∨ ahead i j)

/-- Whether a call waits for content under a guard that a client holds. -/
def AwaitsGuard (s : Service) (i : CallRef) : Prop :=
  ∃ b mode j g, s.wants i = some (.content b, mode) ∧ s.guard? j = some g ∧ g.handle.storage = b

variable {ahead : CallRef → CallRef → Prop} {supply : Supply}

/-- Only finitely many calls have been made, so every queue has a first. -/
private theorem Queueing.wellFounded (hq : s.Queueing ahead) :
    WellFounded fun j i ↦ ahead i j := by
  have hlt {i j : CallRef} (h : ahead i j) : j < s.calls.size := by
    obtain ⟨_, _, _, -, hj⟩ := hq.same h
    obtain ⟨call, hc, -⟩ := wants_eq_some.mp hj
    exact (Array.getElem?_eq_some_iff.mp hc).1
  let r : Fin s.calls.size → Fin s.calls.size → Prop := fun j i ↦ Relation.TransGen ahead i j
  have : IsTrans _ r := ⟨fun _ _ _ h k ↦ k.trans h⟩
  have : Std.Irrefl r := ⟨fun i ↦ hq.acyclic i⟩
  have hr : WellFounded r := Finite.wellFounded_of_trans_of_irrefl r
  have hacc (i : Fin s.calls.size) : Acc (fun j i ↦ ahead i j) i.val := by
    induction i using hr.induction with
    | _ i ih => exact ⟨_, fun j hj ↦ ih ⟨j, hlt hj⟩ (.single hj)⟩
  exact ⟨fun i ↦ ⟨_, fun j hj ↦ hacc ⟨j, hlt hj⟩⟩⟩

/-- A call under way that cannot go on wants a lock, and somebody is ahead or holds it. -/
private theorem Reachable.blocked (hr : Reachable limits s) (hq : s.Queueing ahead)
    (hi : s.InFlight i) (hgo : ¬ s.CanGo supply ahead i) :
    ∃ name mode, s.wants i = some (name, mode) ∧
      ((∃ j, ahead i j) ∨ ∃ j m, s.Holds j name m) := by
  obtain ⟨call, instr, hc, hn⟩ := inFlight_iff.mp hi
  have hw : s.wants i = instr.wants := by simp [wants, hc, Job.wants, hn]
  by_cases ha : ∃ j, ahead i j
  · obtain ⟨j, hj⟩ := ha
    obtain ⟨name, mode, -, hi, -⟩ := hq.same hj
    exact ⟨name, mode, hi, .inl ⟨j, hj⟩⟩
  · have hstep : (s.step? supply i).isSome = false := by
      rw [Bool.eq_false_iff]
      exact fun h ↦ hgo ⟨h, fun j hj ↦ ha ⟨j, hj⟩⟩
    rw [hr.isSome_step? hc hn] at hstep
    cases hwants : instr.wants with
    | none => simp [hwants] at hstep
    | some w =>
      obtain ⟨name, mode⟩ := w
      rw [hwants] at hstep
      obtain ⟨j, m, hj⟩ := Lock.exists_holds_of_not_admits hstep
      exact ⟨name, mode, hw.trans hwants, .inr ⟨j, m, (hr.sound.locked.holds_iff name j m).mp hj⟩⟩

/-- When nothing can move, whoever wants a lock waits for a client in the end. The induction is on
how many locks come after the wanted one, and for one lock on the queue for it. -/
private theorem Reachable.waits (hr : Reachable limits s) (hq : s.Queueing ahead)
    (hstuck : ∀ i, s.InFlight i → ¬ s.CanGo supply ahead i) (n : Nat) :
    ∀ i name mode, s.wants i = some (name, mode) → 2 - name.rank = n →
      ∃ k, Relation.ReflTransGen (s.WaitsFor ahead) i k ∧ s.AwaitsGuard k := by
  induction n using Nat.strong_induction_on with
  | _ n ih =>
    intro i
    induction i using hq.wellFounded.induction with
    | _ i ihq =>
      intro name mode hw hrank
      have hi := inFlight_of_wants hw
      obtain ⟨name', mode', hw', ⟨j, hj⟩ | ⟨j, m, hj⟩⟩ := hr.blocked hq hi (hstuck i hi)
      · obtain ⟨other, md, mj, hwi, hwj⟩ := hq.same hj
        cases hw.symm.trans hwi
        obtain ⟨k, hk, hg⟩ := ihq j hj name mj hwj hrank
        exact ⟨k, .head ⟨inFlight_of_wants hwj, .inr hj⟩ hk, hg⟩
      · cases hw.symm.trans hw'
        obtain ⟨g, hg, rfl⟩ | ⟨hflight, hlater⟩ := hr.sound.holder hw hj
        · exact ⟨i, .refl, _, _, j, g, hw, hg, rfl⟩
        · obtain ⟨other, md, hwj, -⟩ := hr.blocked hq hflight (hstuck j hflight)
          have hlt := hlater other md hwj
          have hle := other.rank_le
          obtain ⟨k, hk, hg⟩ := ih (2 - other.rank) (by omega) j other md hwj rfl
          exact ⟨k, .head ⟨hflight, .inl ⟨name, mode, m, hw, hj⟩⟩ hk, hg⟩

/-- Only clients can bring a service to a standstill. When calls are under way and none of them can
take a step, each of them waits, directly or through others under way that each hold or are queued
ahead for the lock the one before wants, for content under a guard that a client holds. So when no
client holds a guard, some call under way can take a step. -/
theorem stuck_only_by_guards (hr : Reachable limits s) (hq : s.Queueing ahead) (supply : Supply) :
    ((∀ i, s.InFlight i → ¬ s.CanGo supply ahead i) → ∀ i, s.InFlight i →
      ∃ k, Relation.ReflTransGen (s.WaitsFor ahead) i k ∧ s.InFlight k ∧ s.AwaitsGuard k) ∧
    ((∃ i, s.InFlight i) → (∀ j, s.guard? j = none) →
      ∃ i, s.InFlight i ∧ s.CanGo supply ahead i) := by
  have hstuck (h : ∀ i, s.InFlight i → ¬ s.CanGo supply ahead i) (i : CallRef)
      (hi : s.InFlight i) :
      ∃ k, Relation.ReflTransGen (s.WaitsFor ahead) i k ∧ s.InFlight k ∧ s.AwaitsGuard k := by
    obtain ⟨name, mode, hw, -⟩ := hr.blocked hq hi (h i hi)
    obtain ⟨k, hk, hg⟩ := hr.waits hq h _ i name mode hw rfl
    obtain ⟨_, _, _, _, hwk, -⟩ := id hg
    exact ⟨k, hk, inFlight_of_wants hwk, hg⟩
  refine ⟨hstuck, fun ⟨i, hi⟩ hnone ↦ ?_⟩
  by_contra hno
  obtain ⟨k, -, -, _, _, j, g, -, hg, -⟩ := hstuck (fun i hi hgo ↦ hno ⟨i, hi, hgo⟩) i hi
  rw [hnone j] at hg
  cases hg

/-- A buffer is freed while a client has a guard on it. -/
def freedUnderGuard : History :=
  .allocated ⟨7⟩ 4 4 ++ .call (.lookup 0 ⟨⟨7⟩, ⟨0⟩⟩ .exclusive) 2 5 ++ .call (.free 0 0 ⟨0⟩) 3 4

/-- The free has no step to take; it waits for the client to drop the guard. -/
theorem free_waits_for_guard : ∃ s, (withTables [{}]).run? freedUnderGuard = some s ∧
    s.InFlight 3 ∧ s.step? .addressable 3 = none ∧ ∃ k, s.InFlight k ∧ s.AwaitsGuard k ∧
      Relation.ReflTransGen (s.WaitsFor fun _ _ ↦ False) 3 k := by
  have hrun : (((withTables [{}]).run? freedUnderGuard).map fun s ↦
      (s.calls.size, s.wants 3, (List.range 4).all fun i ↦ (s.step? .addressable i).isNone)) =
      some (4, some (.content 0, .exclusive), true) := by
    decide
  obtain ⟨s, hs, h⟩ := Option.map_eq_some_iff.mp hrun
  obtain ⟨hsize, hwants, hall⟩ : s.calls.size = 4 ∧ s.wants 3 = some (.content 0, .exclusive) ∧
      ∀ i < 4, s.step? .addressable i = none := by
    simpa using h
  have hq : s.Queueing fun _ _ ↦ False := by
    refine ⟨False.elim, fun i h ↦ ?_⟩
    cases h <;> assumption
  have hflight : s.InFlight 3 := inFlight_of_wants hwants
  have hnone (i : CallRef) (hi : s.InFlight i) : s.step? .addressable i = none := by
    obtain ⟨call, instr, hc, -⟩ := inFlight_iff.mp hi
    exact hall i (hsize ▸ (Array.getElem?_eq_some_iff.mp hc).1)
  have hstuck (i : CallRef) (hi : s.InFlight i) : ¬ s.CanGo .addressable (fun _ _ ↦ False) i := by
    rintro ⟨hstep, -⟩
    simp [hnone i hi] at hstep
  obtain ⟨k, hk, hkf, hg⟩ := (stuck_only_by_guards ⟨_, hs⟩ hq .addressable).1 hstuck 3 hflight
  exact ⟨s, hs, hflight, hnone 3 hflight, k, hkf, hg, hk⟩

end Service

end SessionBuffers
