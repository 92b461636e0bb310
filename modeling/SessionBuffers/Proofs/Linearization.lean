import SessionBuffers.Proofs.Alone
import SessionBuffers.Proofs.Renaming

/-!
# Histories one operation at a time

Whatever calls do at the same time can be done one after the other, in an order in which whoever
has been answered comes before whoever asks later, and with the same answers (`linearizable`). The
order is that in which the operations take effect; it only ever grows, so it serves every part of
the history as well. Calls and storages have other numbers in the serial history, since they come up
in another order there.
-/

namespace SessionBuffers

/-- What has its turn in an order: a call, or what a client does at once at a place of a history. -/
inductive Turn where
  | call (i : CallRef)
  | act (n : Nat)
  deriving DecidableEq

/-- The call that a turn is for. -/
def Turn.call? : Turn → Option CallRef
  | call i => some i
  | act _ => none

/-- The calls of an order. -/
def callsOf (order : List Turn) : List CallRef := order.filterMap Turn.call?

namespace History

/-- The requests that are made in a history, each with what was supplied then. -/
def invocations (h : History) : List (Supply × Request) := h.filterMap fun
  | (supply, .invoke request) => some (supply, request)
  | _ => none

/-- Whether this was supplied when a call was made or made steps. -/
def Serves (h : History) (i : CallRef) (supply : Supply) : Prop :=
  h.Offers i supply ∨ ∃ request, h.invocations[i]? = some (supply, request)

end History

namespace Service

/-- Whether a call or an act is asked for in a history. -/
def Asks (h : History) : Turn → Prop
  | .call i => i < h.invocations.length
  | .act n => n < h.length

/-- Whether a call has ended, or an act has been done, after a history. -/
def Finishes (h : History) (s : Service) : Turn → Prop
  | .call i => (s.outcome? i).isSome
  | .act n => ∃ supply action, h[n]? = some (supply, action) ∧ action.isCalling = false

/-- How a serial history goes in an order of what is asked for in another: every call runs to its
end before anything else happens. -/
inductive Serially (h : History) (limits : List Limits) : List Turn → History → Service → Prop
  | nil : Serially h limits [] [] (withTables limits)
  | call {order : List Turn} {k : History} {u u' : Service} {i : CallRef} {request : Request}
    {supply : Supply} {n : Nat} (hk : Serially h limits order k u)
    (hi : h.invocations[i]?.map Prod.snd = some request) (hs : h.Serves i supply)
    (hr : u.run? ((supply, .invoke request) ::
      List.replicate n (supply, .step u.calls.size)) = some u')
    (ho : (u'.outcome? u.calls.size).isSome) :
    Serially h limits (order ++ [.call i])
      (k ++ (supply, .invoke request) :: List.replicate n (supply, .step u.calls.size)) u'
  | act {order : List Turn} {k : History} {u u' : Service} {n : Nat} {supply : Supply}
    {action : Action} (hk : Serially h limits order k u) (hn : h[n]? = some (supply, action))
    (hc : action.isCalling = false)
    (ha : u.act? supply (action.rename (callsOf order).idxOf) = some u') :
    Serially h limits (order ++ [.act n])
      (k ++ [(supply, action.rename (callsOf order).idxOf)]) u'

/-- Whether two services are in the same state, but for the numbers of storages. -/
structure Alike (ρ : StorageRef → StorageRef) (s u : Service) : Prop where
  sessions : s.store.registries.map Registry.session = u.store.registries.map Registry.session
  index : ∀ t, s.store.indexOf t = (u.store.indexOf t).rename ρ
  nextId : ∀ t, s.store.nextIdOf t = u.store.nextIdOf t
  roster : ∀ r, s.store.rosterOf r = u.store.rosterOf r
  storage : ∀ c, s.store.Has (.content c) ↔ ∃ b, u.store.Has (.content b) ∧ ρ b = c
  content : ∀ b, u.store.Has (.content b) → s.store.contentOf (ρ b) = u.store.contentOf b

/-- Whether a history that leads to a service is linearized by an order, with a serial history that
leads to another service. -/
structure Linearizes (limits : List Limits) (h : History) (s : Service) (order : List Turn)
    (k : History) (u : Service) (ρ : StorageRef → StorageRef) : Prop where
  serial : Serially h limits order k u
  once : order.Nodup
  asked : ∀ x ∈ order, Asks h x
  complete : ∀ x, s.Finishes h x → x ∈ order
  /-- Who has been answered comes before who asks later. -/
  realtime : ∀ h₁ s₁, h₁ <+: h → (withTables limits).run? h₁ = some s₁ →
    ∀ x y, s₁.Finishes h₁ x → ¬ Asks h₁ y → y ∈ order → [x, y].Sublist order
  /-- Different storages have different numbers. -/
  distinct : ∀ b c, u.store.Has (.content b) → u.store.Has (.content c) → ρ b = ρ c → b = c
  answers : ∀ i o, s.outcome? i = some o →
    ∃ j o', (callsOf order)[j]? = some i ∧ u.outcome? j = some o' ∧ o = o'.rename ρ
  /-- What is seen under guards at any time is seen at some time of the serial history. -/
  seen : ∀ h₁ s₁, h₁ <+: h → (withTables limits).run? h₁ = some s₁ →
    ∃ order₁ k₁ u₁, order₁ <+: order ∧ k₁ <+: k ∧ Serially h₁ limits order₁ k₁ u₁ ∧
      ∀ i c, s₁.content? i = some c → ∃ j, (callsOf order₁)[j]? = some i ∧ u₁.content? j = some c
  final : s.Idle → s.Alike ρ u

/-- Whether the calls of a service are those that are made in a history, for what they are made. -/
structure Records (h : History) (s : Service) : Prop where
  calls : h.invocations.length = s.calls.size
  requests : ∀ i job, s.job? i = some job → h.invocations[i]?.map Prod.snd = some job.request

/-- How a serial history goes with another while operations take effect in it: an ideal state goes
with either, and the two are the same but for the numbers of calls and storages. -/
structure Tracks (limits : List Limits) (h : History) (s : Service) (order : List Turn)
    (k : History) (u : Service) (ρ : StorageRef → StorageRef) (p q : Ideal) : Prop where
  records : s.Records h
  serial : Serially h limits order k u
  coupled : s.Coupled h p
  alone : u.Coupled [] q
  idle : u.Idle
  renamed : p.Renamed (callsOf order) ρ q
  made : u.calls.size = (callsOf order).length
  once : order.Nodup
  acts : ∀ n, .act n ∈ order ↔ s.Finishes h (.act n)

variable {limits : List Limits} {supply : Supply} {s s' u : Service} {action : Action}
  {request : Request} {i : CallRef} {h k : History} {order : List Turn} {p p' q : Ideal}
  {ρ : StorageRef → StorageRef} {e : Supply × Action}

/-! ### Serial histories -/

theorem invocations_append (h k : History) :
    (h ++ k).invocations = h.invocations ++ k.invocations := List.filterMap_append

theorem callsOf_append (order others : List Turn) :
    callsOf (order ++ others) = callsOf order ++ callsOf others := List.filterMap_append

theorem call_mem {order : List Turn} : .call i ∈ order ↔ i ∈ callsOf order := by
  simp only [callsOf, List.mem_filterMap]
  constructor
  · exact fun hi ↦ ⟨_, hi, rfl⟩
  · rintro ⟨x, hx, he⟩
    cases x <;> cases he
    exact hx

theorem request_append {h : History} (k : History)
    (hi : h.invocations[i]?.map Prod.snd = some request) :
    (h ++ k).invocations[i]?.map Prod.snd = some request := by
  obtain ⟨e, he, rfl⟩ := Option.map_eq_some_iff.mp hi
  rw [invocations_append, List.getElem?_append_left (List.getElem?_eq_some_iff.mp he).1, he]
  rfl

theorem serves_append {h : History} (k : History) (hs : h.Serves i supply) :
    (h ++ k).Serves i supply := by
  obtain ⟨σ, τ, hσ, hτ, he⟩ | ⟨request, hi⟩ := hs
  · exact .inl ⟨σ, τ, List.mem_append_left _ hσ, List.mem_append_left _ hτ, he⟩
  · refine .inr ⟨request, ?_⟩
    rw [invocations_append, List.getElem?_append_left (List.getElem?_eq_some_iff.mp hi).1, hi]

/-- A serial history goes on to do what is asked for while more is asked for. -/
theorem Serially.append (hk : Serially h limits order k u) (h' : History) :
    Serially (h ++ h') limits order k u := by
  induction hk with
  | nil => exact .nil
  | call _ hi hs hr ho ih => exact .call ih (request_append h' hi) (serves_append h' hs) hr ho
  | act _ hn hc ha ih =>
    refine .act ih ?_ hc ha
    rw [List.getElem?_append_left (List.getElem?_eq_some_iff.mp hn).1, hn]

theorem allows_rename {f : CallRef → CallRef} (hc : action.isCalling = false) (u : Service) :
    u.allows (action.rename f) = true := by
  cases action <;> first | rfl | cases hc

/-- A serial history is a history. -/
theorem Serially.run (hk : Serially h limits order k u) :
    (withTables limits).run? k = some u := by
  induction hk with
  | nil => rfl
  | call _ _ _ hr _ ih => exact run?_append_eq_some.mpr ⟨_, ih, hr⟩
  | act _ _ hc ha ih =>
    exact run?_append_eq_some.mpr
      ⟨_, ih, run?_cons_eq_some.mpr ⟨allows_rename hc _, _, ha, rfl⟩⟩

/-! ### One action -/

theorem records_withTables (limits : List Limits) : (withTables limits).Records [] where
  calls := rfl
  requests i job hj := by simp [withTables, job?] at hj

private theorem Does.size_calls (hd : s.Does supply action s') :
    s'.calls.size = s.calls.size + (History.invocations [(supply, action)]).length := by
  cases hd with
  | tend hk _ => cases action <;> first | rfl | cases hk
  | _ => simp [History.invocations]

/-- What is recorded stays recorded, and a call is recorded when it is made. -/
theorem Records.of_does (hr : s.Records h) (ha : action.isAtomic = true)
    (hd : s.Does supply action s') : s'.Records (h ++ [(supply, action)]) where
  calls := by rw [invocations_append, List.length_append, hr.calls, hd.size_calls]
  requests i job hj := by
    obtain ⟨call, hcall, rfl⟩ := job?_eq_some.mp hj
    obtain ⟨hcall, -, -⟩ | ⟨request, job, rfl, hjob, rfl, rfl, -⟩ |
      ⟨before, instr, job, rfl, hbefore, hn, hrun, rfl⟩ | ⟨before, _, rfl, hbefore, -, rfl⟩ :=
      hd.call_cases hcall
    · exact request_append _ (hr.requests i _ (job?_eq_some.mpr ⟨call, hcall, rfl⟩))
    · rw [invocations_append, ← hr.calls, (Job.begins_of_ofRequest? ha hjob).1]
      simp [History.invocations]
    · rw [((Job.kept_of_next hn).of_run hrun).1]
      exact request_append _ (hr.requests i _ (job?_eq_some.mpr ⟨before, hbefore, rfl⟩))
    · exact request_append _ (hr.requests i _ (job?_eq_some.mpr ⟨before, hbefore, rfl⟩))

/-- An act is finished when it is done. -/
theorem finishes_act_append {n : Nat} : s'.Finishes (h ++ [(supply, action)]) (.act n) ↔
    s.Finishes h (.act n) ∨ n = h.length ∧ action.isCalling = false := by
  simp only [Finishes, List.getElem?_append]
  split
  · next hlt =>
    have hne : n ≠ h.length := Nat.ne_of_lt hlt
    simp [hne]
  · next hle =>
    have hnone : h[n]? = none := List.getElem?_eq_none (Nat.le_of_not_lt hle)
    rw [hnone]
    by_cases hn : n = h.length
    · simp [hn]
    · have hlt : 0 < n - h.length := by omega
      simp [hn, Nat.ne_of_gt hlt]

theorem finishes_lt {n : Nat} (hf : s.Finishes h (.act n)) : n < h.length := by
  obtain ⟨_, _, hn, -⟩ := hf
  exact (List.getElem?_eq_some_iff.mp hn).1

namespace Tracks

theorem initial (limits : List Limits) :
    Tracks limits [] (withTables limits) [] [] (withTables limits) id (Ideal.initial limits)
      (Ideal.initial limits) where
  records := records_withTables limits
  serial := .nil
  coupled := coupled_withTables limits
  alone := coupled_withTables limits
  idle := fun i ⟨job, hj, _⟩ ↦ by simp [withTables, job?] at hj
  renamed := Ideal.renamed_initial limits
  made := rfl
  once := List.nodup_nil
  acts n := by simp [Finishes]

/-- An action of a call at which nothing takes effect. -/
private theorem rests (ht : Tracks limits h s order k u ρ p q)
    (hr : s'.Records (h ++ [(supply, action)])) (hc : s'.Coupled (h ++ [(supply, action)]) p)
    (ha : action.isCalling = true) :
    Tracks limits (h ++ [(supply, action)]) s' order k u ρ p q :=
  { ht with
    records := hr
    serial := ht.serial.append _
    coupled := hc
    acts := fun n ↦ by simp [finishes_act_append (s := s), ht.acts, ha] }

/-- A call takes effect: it is made in the serial history and runs to its end there. -/
private theorem takes (ht : Tracks limits h s order k u ρ p q) {b : StorageRef}
    (hready : p.Ready (.call i supply b request))
    (hr : s'.Records (h ++ [e])) (hi : (h ++ [e]).invocations[i]?.map Prod.snd = some request)
    (hs : (h ++ [e]).Serves i supply)
    (hc : s'.Coupled (h ++ [e]) (p.after (.call i supply b request)))
    (ha : e.2.isCalling = true) :
    ∃ k' u' ρ' q', Tracks limits (h ++ [e]) s' (order ++ [.call i]) (k ++ k') u' ρ'
      (p.after (.call i supply b request)) q' := by
  obtain ⟨hanswer, hatomic, hnames, hpermits, hb⟩ := hready
  obtain ⟨n, u', c, hrun, hidle, hsize, ⟨-, -, -, -, hc'⟩, halone⟩ := ht.alone.performs
    ⟨k, ht.serial.run⟩ ht.idle hatomic (ht.renamed.names hnames) (ht.renamed.permits hpermits)
    supply
  have hcalls : callsOf (order ++ [.call i]) = callsOf order ++ [i] := callsOf_append _ _
  have hrenamed := ht.renamed.call hanswer hb hc' supply request
  rw [← hcalls, ← ht.made] at hrenamed
  refine ⟨_, u', _, _,
    { records := hr
      serial := .call (ht.serial.append _) hi hs hrun ?_
      coupled := hc
      alone := halone
      idle := hidle
      renamed := hrenamed
      made := ?_
      once := ?_
      acts := fun m ↦ ?_ }⟩
  · rw [← halone.answer_eq_outcome? hidle]
    simp [Ideal.after, Ideal.answered]
  · rw [hsize, ht.made, hcalls, List.length_append]
    rfl
  · refine List.nodup_append.mpr ⟨ht.once, by simp, fun x hx y hy he ↦ ?_⟩
    rw [he, List.mem_singleton.mp hy, call_mem] at hx
    exact ht.renamed.not_made hanswer hx
  · obtain ⟨σ, action⟩ := e
    simp [finishes_act_append (s := s), ht.acts, show action.isCalling = true from ha]

/-- What a client does at once is done in the serial history at once. -/
private theorem does (ht : Tracks limits h s order k u ρ p q)
    (hready : p.Ready (.act action)) (hr : s'.Records (h ++ [(supply, action)]))
    (hc : s'.Coupled (h ++ [(supply, action)]) (p.after (.act action)))
    (ha : action.isCalling = false) :
    ∃ k' u' q', Tracks limits (h ++ [(supply, action)]) s' (order ++ [.act h.length]) (k ++ k') u' ρ
      (p.after (.act action)) q' := by
  obtain ⟨hready', hrenamed⟩ := ht.renamed.act hready
  have hreach : Reachable limits u := ⟨k, ht.serial.run⟩
  obtain ⟨u', hact, hidle, hsize, halone⟩ := ht.alone.acts hreach.sound ht.idle hready' supply
  have hcalls : callsOf (order ++ [.act h.length]) = callsOf order :=
    (callsOf_append _ _).trans (List.append_nil _)
  refine ⟨_, u', _,
    { records := hr
      serial := .act (ht.serial.append _) List.getElem?_concat_length ha hact
      coupled := hc
      alone := halone
      idle := hidle
      renamed := by rwa [hcalls]
      made := by rw [hsize, ht.made, hcalls]
      once := ?_
      acts := fun m ↦ ?_ }⟩
  · refine List.nodup_append.mpr ⟨ht.once, by simp, fun x hx y hy he ↦ ?_⟩
    rw [he, List.mem_singleton.mp hy, ht.acts] at hx
    exact Nat.lt_irrefl _ (finishes_lt hx)
  · simp [finishes_act_append (s := s), ht.acts, ha]

/-- The serial history follows every action. -/
theorem step (ht : Tracks limits h s order k u ρ p q) (hreach : Reachable limits s)
    (ha : action.isAtomic = true) (hact : s.act? supply action = some s') :
    ∃ l k' u' ρ' p' q',
      Tracks limits (h ++ [(supply, action)]) s' (order ++ l) (k ++ k') u' ρ' p' q' := by
  have hd := does_of_act? hact
  have hr := ht.records.of_does ha hd
  cases hcalling : action.isCalling with
  | false =>
    obtain ⟨hready, hc⟩ := ht.coupled.act hreach.sound hact hcalling
    obtain ⟨k', u', q', ht⟩ := ht.does hready hr hc hcalling
    exact ⟨_, k', u', ρ, _, q', ht⟩
  | true =>
    cases action with
    | invoke request =>
      obtain ⟨p', htakes, hc⟩ := ht.coupled.invoke ha hd
      cases htakes with
      | rest => exact ⟨[], [], u, ρ, p, q, by simpa using ht.rests hr hc rfl⟩
      | @effect σ b hσ hready =>
        obtain rfl : σ = supply := hσ
        have hlast : (h ++ [(σ, Action.invoke request)]).invocations[s.calls.size]? =
            some (σ, request) := by
          rw [invocations_append, ← ht.records.calls]
          simp [History.invocations]
        obtain ⟨k', u', ρ', q', ht⟩ := ht.takes hready hr (by rw [hlast]; rfl)
          (.inr ⟨request, hlast⟩) hc rfl
        exact ⟨_, k', u', ρ', _, q', ht⟩
    | step i =>
      obtain ⟨job, p', hj, htakes, hc⟩ := ht.coupled.step hreach hd
      generalize hrequest : job.request = request at htakes
      cases htakes with
      | rest => exact ⟨[], [], u, ρ, p, q, by simpa using ht.rests hr hc rfl⟩
      | @effect σ b hσ hready =>
        obtain ⟨k', u', ρ', q', ht⟩ := ht.takes hready hr
          (request_append _ (hrequest ▸ ht.records.requests i job hj)) (.inl hσ) hc rfl
        exact ⟨_, k', u', ρ', _, q', ht⟩
    | _ => cases hcalling

/-- Who has been answered has had its turn. -/
private theorem mem_of_finishes (ht : Tracks limits h s order k u ρ p q) {x : Turn}
    (hx : s.Finishes h x) : x ∈ order := by
  cases x with
  | act n => exact (ht.acts n).mpr hx
  | call i =>
    rw [call_mem]
    obtain ⟨o, ho⟩ := Option.isSome_iff_exists.mp hx
    by_contra hnot
    have hnone := (ht.renamed.unmade hnot).2
    rw [ht.coupled.answer_of_outcome? ho] at hnone
    cases hnone

/-- Who has had its turn has asked for it. -/
private theorem asks_of_mem (ht : Tracks limits h s order k u ρ p q) {x : Turn} (hx : x ∈ order) :
    Asks h x := by
  cases x with
  | act n => exact finishes_lt ((ht.acts n).mp hx)
  | call i =>
    obtain ⟨j, hj⟩ := List.mem_iff_getElem?.mp (call_mem.mp hx)
    have hanswer := ht.renamed.answer hj
    obtain ⟨o, ho⟩ := Option.isSome_iff_exists.mp
      (ht.renamed.answered (List.getElem?_eq_some_iff.mp hj).1)
    rw [ho, ht.coupled.answer] at hanswer
    obtain ⟨job, hjob, -⟩ := Option.bind_eq_some_iff.mp hanswer
    obtain ⟨call, hcall, -⟩ := job?_eq_some.mp hjob
    rw [Asks, ht.records.calls]
    exact (Array.getElem?_eq_some_iff.mp hcall).1

/-- Calls are answered alike. -/
private theorem answers (ht : Tracks limits h s order k u ρ p q) {o : Outcome}
    (ho : s.outcome? i = some o) :
    ∃ j o', (callsOf order)[j]? = some i ∧ u.outcome? j = some o' ∧ o = o'.rename ρ := by
  have hanswer := ht.coupled.answer_of_outcome? ho
  have hx : Turn.call i ∈ order := ht.mem_of_finishes (by simp [Finishes, ho])
  obtain ⟨j, hj⟩ := List.mem_iff_getElem?.mp (call_mem.mp hx)
  rw [ht.renamed.answer hj] at hanswer
  obtain ⟨o', ho', rfl⟩ := Option.map_eq_some_iff.mp hanswer
  exact ⟨j, o', hj, (ht.alone.answer_eq_outcome? ht.idle j).symm.trans ho', rfl⟩

/-- Guards show the same content. -/
private theorem seen (ht : Tracks limits h s order k u ρ p q) (hs : s.Sound) {c : Content}
    (hc : s.content? i = some c) : ∃ j, (callsOf order)[j]? = some i ∧ u.content? j = some c := by
  have hreach : Reachable limits u := ⟨k, ht.serial.run⟩
  obtain ⟨g, hg, hc⟩ := Option.bind_eq_some_iff.mp hc
  obtain ⟨storage, hstorage, hc⟩ := Option.bind_eq_some_iff.mp hc
  cases hc
  obtain ⟨hguard, hshown⟩ := ht.coupled.content_under_guard hs hg
  obtain ⟨hj, g', hg', rfl⟩ := ht.renamed.guard_idxOf hguard
  refine ⟨_, hj, ?_⟩
  have hu := (ht.alone.guard_eq_guard? hreach.sound ht.idle _).symm.trans hg'
  have hlive := hreach.sound.live_of_guard? hu
  obtain ⟨storage', hstorage'⟩ := Store.has_content_iff.mp (Store.has_of_unreleased hlive)
  have hsame := ht.renamed.content _ (ht.renamed.guarded hg').1
  rw [ht.alone.content_of_idle ht.idle hlive, Store.contentOf_eq hstorage'] at hsame
  rw [Store.contentOf_eq hstorage] at hshown
  have he : storage.content = storage'.content := hshown.symm.trans hsame
  simp [content?, hu, hstorage', he]

/-- Storages are released alike. -/
private theorem released_iff (ht : Tracks limits h s order k u ρ p q) (hr : Reachable limits s)
    (hidle : s.Idle) {b : StorageRef} (hb : u.store.Has (.content b)) :
    (s.store.contentOf (ρ b)).released = true ↔ (u.store.contentOf b).released = true := by
  have hreach : Reachable limits u := ⟨k, ht.serial.run⟩
  have hborn : b ∈ q.born := (ht.alone.mem_born_iff ht.idle).mpr hb
  have hb' : s.store.Has (.content (ρ b)) := by
    rw [← ht.coupled.mem_born_iff hidle, ht.renamed.born]
    exact List.mem_map_of_mem hborn
  have hindex (t : TableRef) (key : Key) :
      (s.store.indexOf t)[key]? = some (ρ b) ↔ (u.store.indexOf t)[key]? = some b := by
    rw [← ht.coupled.index_of_idle hidle, ← ht.alone.index_of_idle ht.idle, ht.renamed.index,
      Index.getElem?_rename, Option.map_eq_some_iff]
    constructor
    · rintro ⟨c, hc, he⟩
      rw [hc, ht.renamed.inj (ht.renamed.indexed hc) hborn he]
    · exact fun hc ↦ ⟨b, hc, rfl⟩
  have hhanded : (∃ i handle, s.outcome? i = some (.handle handle) ∧ handle.storage = ρ b) ↔
      ∃ j handle, u.outcome? j = some (.handle handle) ∧ handle.storage = b := by
    constructor
    · rintro ⟨i, handle, ho, he⟩
      obtain ⟨j, o, -, hout, hrename⟩ := ht.answers ho
      cases o <;> cases hrename
      exact ⟨j, _, hout, ht.renamed.inj
        (ht.renamed.named (ht.alone.answer_of_outcome? hout) rfl) hborn he⟩
    · rintro ⟨j, handle, ho, rfl⟩
      obtain ⟨call, hcall, -⟩ := Option.bind_eq_some_iff.mp ho
      have hlt : j < (callsOf order).length := ht.made ▸ (Array.getElem?_eq_some_iff.mp hcall).1
      have hanswer := ht.renamed.answer (List.getElem?_eq_getElem hlt)
      rw [ht.alone.answer_of_outcome? ho, ht.coupled.answer_eq_outcome? hidle] at hanswer
      exact ⟨_, _, hanswer, rfl⟩
  rw [hr.released_iff hidle hb', hreach.released_iff ht.idle hb, hhanded]
  simp only [ne_eq, hindex]

/-- When no call is under way the two services are in the same state. -/
private theorem alike (ht : Tracks limits h s order k u ρ p q) (hr : Reachable limits s)
    (hidle : s.Idle) : s.Alike ρ u where
  sessions := by rw [← ht.coupled.sessions, ht.renamed.sessions, ht.alone.sessions]
  index t := by
    rw [← ht.coupled.index_of_idle hidle, ht.renamed.index, ht.alone.index_of_idle ht.idle]
  nextId t := by rw [← ht.coupled.nextId, ht.renamed.nextId, ht.alone.nextId]
  roster r := by
    rw [← ht.coupled.roster_of_idle hidle, ht.renamed.roster, ht.alone.roster_of_idle ht.idle]
  storage c := by
    simp only [← ht.coupled.mem_born_iff hidle, ← ht.alone.mem_born_iff ht.idle, ht.renamed.born,
      List.mem_map]
  content b hb := by
    have hreach : Reachable limits u := ⟨k, ht.serial.run⟩
    have hborn : b ∈ q.born := (ht.alone.mem_born_iff ht.idle).mpr hb
    have hb' : s.store.Has (.content (ρ b)) := by
      rw [← ht.coupled.mem_born_iff hidle, ht.renamed.born]
      exact List.mem_map_of_mem hborn
    have hiff := ht.released_iff hr hidle hb
    cases hreleased : (u.store.contentOf b).released with
    | true =>
      rw [Content.emptied_iff.mp (hr.disposed.released hb' (hiff.mpr hreleased)).1,
        Content.emptied_iff.mp (hreach.disposed.released hb hreleased).1]
    | false =>
      have hlive : (s.store.contentOf (ρ b)).released = false := by
        rw [Bool.eq_false_iff, ne_eq, hiff, hreleased]
        simp
      rw [← ht.coupled.content_of_idle hidle hlive, ht.renamed.content b hborn,
        ht.alone.content_of_idle ht.idle hreleased]

end Tracks

/-- Some serial history follows every history, and its beginnings follow the beginnings of the
history. -/
private theorem exists_tracks (h : History) : ∀ {s : Service},
    (withTables limits).run? h = some s → (∀ e ∈ h, e.2.isAtomic = true) →
    ∃ order k u ρ p q, Tracks limits h s order k u ρ p q ∧
      ∀ h₁ s₁, h₁ <+: h → (withTables limits).run? h₁ = some s₁ →
        ∃ order₁ k₁ u₁ ρ₁ p₁ q₁, Tracks limits h₁ s₁ order₁ k₁ u₁ ρ₁ p₁ q₁ ∧
          order₁ <+: order ∧ k₁ <+: k := by
  induction h using List.reverseRecOn with
  | nil =>
    intro s hrun _
    cases hrun
    refine ⟨_, _, _, _, _, _, .initial limits, fun h₁ s₁ hprefix hrun ↦ ?_⟩
    cases List.prefix_nil.mp hprefix
    cases hrun
    exact ⟨_, _, _, _, _, _, .initial limits, List.prefix_rfl, List.prefix_rfl⟩
  | append_singleton h e ih =>
    intro s' hrun hatomic
    obtain ⟨s, hrun₀, hlast⟩ := run?_append_eq_some.mp hrun
    obtain ⟨σ, action⟩ := e
    obtain ⟨-, s₁, hact, he⟩ := run?_cons_eq_some.mp hlast
    cases he
    obtain ⟨order, k, u, ρ, p, q, ht, hearlier⟩ :=
      ih hrun₀ fun e he ↦ hatomic e (List.mem_append_left _ he)
    obtain ⟨l, k', u', ρ', p', q', ht'⟩ :=
      ht.step ⟨h, hrun₀⟩ (hatomic _ List.mem_concat_self) hact
    refine ⟨_, _, _, _, _, _, ht', fun h₁ s₁ hprefix hrun₁ ↦ ?_⟩
    obtain rfl | hprefix := List.prefix_concat_iff.mp hprefix
    · cases hrun.symm.trans hrun₁
      exact ⟨_, _, _, _, _, _, ht', List.prefix_rfl, List.prefix_rfl⟩
    · obtain ⟨order₁, k₁, u₁, ρ₁, p₁, q₁, ht₁, ho, hk⟩ := hearlier h₁ s₁ hprefix hrun₁
      exact ⟨order₁, k₁, u₁, ρ₁, p₁, q₁, ht₁, ho.trans (List.prefix_append _ _),
        hk.trans (List.prefix_append _ _)⟩

/-- Every history is linearizable. When all its calls are for what takes effect at once, the calls
that have ended and some of those under way, together with what clients did at once, can be done one
after the other, in an order in which who has been answered comes before who asks later, and with
the same answers; what is seen under guards is the same, and when no call is under way so are
indexes, rosters, contents and next numbers. -/
theorem linearizable (hrun : (withTables limits).run? h = some s)
    (hatomic : ∀ e ∈ h, e.2.isAtomic = true) :
    ∃ order k u ρ, Linearizes limits h s order k u ρ := by
  obtain ⟨order, k, u, ρ, p, q, ht, hearlier⟩ := exists_tracks h hrun hatomic
  refine ⟨order, k, u, ρ,
    { serial := ht.serial
      once := ht.once
      asked := fun x hx ↦ ht.asks_of_mem hx
      complete := fun x hx ↦ ht.mem_of_finishes hx
      realtime := fun h₁ s₁ hprefix hrun₁ x y hx hy hmem ↦ ?_
      distinct := fun b c hb hc ↦ ?_
      answers := fun i o ho ↦ ht.answers ho
      seen := fun h₁ s₁ hprefix hrun₁ ↦ ?_
      final := ht.alike ⟨h, hrun⟩ }⟩
  · obtain ⟨order₁, k₁, u₁, ρ₁, p₁, q₁, ht₁, ⟨rest, rfl⟩, -⟩ := hearlier h₁ s₁ hprefix hrun₁
    have hlater : y ∈ rest :=
      (List.mem_append.mp hmem).resolve_left fun hin ↦ hy (ht₁.asks_of_mem hin)
    exact (List.singleton_sublist.mpr (ht₁.mem_of_finishes hx)).append
      (List.singleton_sublist.mpr hlater)
  · exact ht.renamed.inj ((ht.alone.mem_born_iff ht.idle).mpr hb)
      ((ht.alone.mem_born_iff ht.idle).mpr hc)
  · obtain ⟨order₁, k₁, u₁, ρ₁, p₁, q₁, ht₁, ho, hk⟩ := hearlier h₁ s₁ hprefix hrun₁
    have hreach : Reachable limits s₁ := ⟨h₁, hrun₁⟩
    exact ⟨order₁, k₁, u₁, ho, hk, ht₁.serial, fun i c hc ↦ ht₁.seen hreach.sound hc⟩

/-- An allocation is overtaken by another that is asked for after it. -/
def overtaken : History :=
  (.call (.attach ⟨⟨7⟩, .alone 1⟩) 0 1 ++ .call (.allocate 0 0 4 4) 1 2 ++
    .call (.allocate 0 0 8 8) 2 14 : History) ++ List.replicate 12 (.addressable, .step 1)

/-- The later allocation is given the first number, and there is an order of the two in which it
would be. -/
theorem overtaken_in_order : ∃ s, (withTables [{}]).run? overtaken = some s ∧
    s.outcome? 1 = some (.handle ⟨⟨⟨7⟩, ⟨1⟩⟩, 0⟩) ∧
    s.outcome? 2 = some (.handle ⟨⟨⟨7⟩, ⟨0⟩⟩, 1⟩) ∧
    (∀ e ∈ overtaken, e.2.isAtomic = true) ∧
    ∃ order k u ρ, Linearizes [{}] overtaken s order k u ρ ∧ .call 1 ∈ order ∧ .call 2 ∈ order := by
  have hrun : (((withTables [{}]).run? overtaken).map fun s ↦ (s.outcome? 1, s.outcome? 2)) =
      some (some (.handle ⟨⟨⟨7⟩, ⟨1⟩⟩, 0⟩), some (.handle ⟨⟨⟨7⟩, ⟨0⟩⟩, 1⟩)) := by
    decide +kernel
  have hatomic : ∀ e ∈ overtaken, e.2.isAtomic = true := by decide
  obtain ⟨s, hs, h⟩ := Option.map_eq_some_iff.mp hrun
  simp only [Prod.mk.injEq] at h
  obtain ⟨hfirst, hsecond⟩ := h
  obtain ⟨order, k, u, ρ, hl⟩ := linearizable hs hatomic
  have hended {i : CallRef} {o : Outcome} (ho : s.outcome? i = some o) : .call i ∈ order :=
    hl.complete (.call i) (by simp [Finishes, ho])
  exact ⟨s, hs, hfirst, hsecond, hatomic, order, k, u, ρ, hl, hended hfirst, hended hsecond⟩

end Service

end SessionBuffers
