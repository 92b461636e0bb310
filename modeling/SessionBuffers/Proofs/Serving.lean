import SessionBuffers.Proofs.Client

/-!
# A ledger that serves clients

When each session has one registry and numbers do not come twice, a session's buffers are those that
its client has been given, in the order of their keys (`Ledger.Serves`). What a wish does to the
ledger is then nothing, a number drawn, or one of five things that are each the matter of one
session (`Ledger.Turns`), and the ledger goes on serving (`Ledger.Serves.of_turns`).
-/

namespace SessionBuffers

/-- Whether a request may be answered with a guard. -/
def Request.opens : Request → Bool
  | .lookup _ _ _ | .access _ _ => true
  | _ => false

/-- What is seen of some bytes under a guard at first and after each edit. -/
def Bytes.use? (mode : Mode) (bytes : Bytes) :
    List (Side × Region.Edit) → Option (List Bytes × Bytes)
  | [] => some ([bytes], bytes)
  | (which, e) :: edits => do
    let next ← bytes.edit? which e
    guard (mode = .exclusive)
    let (seen, last) ← next.use? mode edits
    return (bytes :: seen, last)

/-- Whether an outcome shows that a number has been drawn. -/
def Outcome.hasDrawn : Outcome → Bool
  | .id _ | .handle _ | .refused (.duplicateKey _) => true
  | _ => false

namespace Ledger

variable {supply : Supply} {l l' : Ledger} {n n' : Notebook} {w : Wish} {o : Outcome}
  {receipt : Receipt} {request : Request} {s t : SessionId} {r : RegistryRef} {key : Key}
  {g h : Handle}

/-! ### A ledger and what a client has noted -/

/-- How a ledger is when each session has one registry, and a client has noted everything it has
been given, and no number has come twice. -/
structure Serves (l : Ledger) (n : Notebook) : Prop where
  distinct : ∀ {q r : RegistryRef} {s : SessionId}, l.registries[q]? = some s →
    l.registries[r]? = some s → q = r
  registry : ∀ {s : SessionId} {x : Holding}, n.holding s = some x →
    ∃ r, x.registry? l.sessions = some r ∧ l.registries[r]? = some s
  unattached : ∀ {s : SessionId} {r : RegistryRef}, n.holding s = none → l.registries[r]? ≠ some s
  /-- A buffer is owned by the registry of its session, and has been handed out for that. -/
  entry : ∀ {key : Key} {e : Entry}, l.buffers[key]? = some e →
    l.registries[e.owner]? = some key.session ∧ ⟨key, e.serial⟩ ∈ n.handles key.session
  handle : ∀ {s : SessionId} {h : Handle}, h ∈ n.handles s →
    h.key.session = s ∧ h.key.buffer.number < l.nextId.number ∧ h ∈ l.handles
  ascending : ∀ s, (n.handles s).Pairwise fun g h ↦ g.key.buffer.number < h.key.buffer.number
  apart : ∀ {s t : SessionId} {g h : Handle}, g ∈ n.handles s → h ∈ n.handles t →
    g.key.buffer = h.key.buffer → s = t

theorem serves_initial (limits : Limits) (id : BufferId) : (initial limits id).Serves {} := by
  constructor <;> simp [initial]

namespace Serves

/-- A key is that of the buffer at one position. -/
theorem position_unique (hs : l.Serves n) {i j : Nat} (hi : (n.handles s)[i]? = some g)
    (hj : (n.handles s)[j]? = some h) (hkey : g.key = h.key) : i = j := by
  obtain ⟨hi', rfl⟩ := List.getElem?_eq_some_iff.mp hi
  obtain ⟨hj', rfl⟩ := List.getElem?_eq_some_iff.mp hj
  have hlt := List.pairwise_iff_getElem.mp (hs.ascending s)
  rcases Nat.lt_trichotomy i j with hij | rfl | hji
  · exact absurd (hkey ▸ hlt i j hi' hj' hij) (UInt64.lt_irrefl _)
  · rfl
  · exact absurd (hkey ▸ hlt j i hj' hi' hji) (UInt64.lt_irrefl _)

/-- A key names one buffer. -/
theorem handle_unique (hs : l.Serves n) (hg : g ∈ n.handles s) (hh : h ∈ n.handles s)
    (hkey : g.key = h.key) : g = h := by
  obtain ⟨i, hi⟩ := List.mem_iff_getElem?.mp hg
  obtain ⟨j, hj⟩ := List.mem_iff_getElem?.mp hh
  obtain rfl := hs.position_unique hi hj hkey
  exact Option.some.inj (hi.symm.trans hj)

/-- A buffer is the one that its handle has been given for. -/
theorem serial_eq (hs : l.Serves n) (hh : h ∈ n.handles s) {e : Entry}
    (he : l.buffers[h.key]? = some e) : e.serial = h.storage := by
  obtain ⟨-, hin⟩ := hs.entry he
  rw [(hs.handle hh).1] at hin
  exact congrArg Handle.storage (hs.handle_unique hin hh rfl)

/-- The number that comes next is not in use. -/
theorem not_contains_next (hs : l.Serves n) (s : SessionId) :
    l.buffers.contains ⟨s, l.nextId⟩ = false := by
  rw [← owner?_eq_none, owner?, Option.map_eq_none_iff]
  cases he : l.buffers[(⟨s, l.nextId⟩ : Key)]? with
  | none => rfl
  | some e =>
    obtain ⟨-, hlt, -⟩ := hs.handle (hs.entry he).2
    exact absurd hlt (UInt64.lt_irrefl _)

/-- The registry that a client works with is the session's. -/
theorem registry_eq_some (hs : l.Serves n) (hr : n.registry? l.sessions s = some r) :
    l.registries[r]? = some s := by
  obtain ⟨x, hx, hr⟩ := Option.bind_eq_some_iff.mp hr
  obtain ⟨q, hq, hregistry⟩ := hs.registry hx
  cases hq.symm.trans hr
  exact hregistry

/-- A session's registry owns the buffers of the session. -/
theorem owner?_eq_some_iff (hs : l.Serves n) (hr : l.registries[r]? = some s) :
    l.owner? key = some r ↔ key.session = s ∧ l.buffers.contains key = true := by
  rw [owner?_eq_some, Std.ExtTreeMap.contains_eq_isSome_getElem?, Option.isSome_iff_exists]
  constructor
  · rintro ⟨e, he, rfl⟩
    exact ⟨Option.some.inj ((hs.entry he).1.symm.trans hr), e, he⟩
  · rintro ⟨rfl, e, he⟩
    exact ⟨e, he, hs.distinct (hs.entry he).1 hr⟩

end Serves

/-- The keys of a session's buffers, in the order in which they were allocated. -/
theorem Serves.keys_eq (hs : l.Serves n) (s : SessionId) :
    l.buffers.keys.filter (fun key ↦ key.session = s) =
      ((n.handles s).map Handle.key).filter l.buffers.contains := by
  refine Key.eq_of_ascending (Std.ExtTreeMap.ordered_keys.filter _) ?_ fun key ↦ ?_
  · refine List.Pairwise.filter _ (List.pairwise_map.mpr ?_)
    refine (hs.ascending s).imp_of_mem fun {g h} hg hh hlt ↦ ?_
    have hsame : compare s s = .eq := Std.ReflCmp.compare_self
    rw [Key.compare_eq, (hs.handle hg).1, (hs.handle hh).1, hsame, Ordering.eq_then]
    change compare g.key.buffer.number h.key.buffer.number = .lt
    exact Std.compare_eq_lt.mpr hlt
  · simp only [List.mem_filter, Std.ExtTreeMap.mem_keys, decide_eq_true_iff, List.mem_map,
      ← Std.ExtTreeMap.contains_iff_mem]
    constructor
    · rintro ⟨hin, rfl⟩
      obtain ⟨e, he⟩ := Option.isSome_iff_exists.mp
        (Std.ExtTreeMap.contains_eq_isSome_getElem?.symm.trans hin)
      exact ⟨⟨_, (hs.entry he).2, rfl⟩, hin⟩
    · rintro ⟨⟨h, hh, rfl⟩, hin⟩
      exact ⟨hin, (hs.handle hh).1⟩

/-- What a session's registry owns. -/
theorem Serves.owned_eq (hs : l.Serves n) (hr : l.registries[r]? = some s) :
    l.owned r = l.buffers.keys.filter fun key ↦ key.session = s := by
  refine List.filter_congr fun key hkey ↦ ?_
  have hin : l.buffers.contains key = true := by simpa using hkey
  rw [Bool.eq_iff_iff, decide_eq_true_iff, decide_eq_true_iff, hs.owner?_eq_some_iff hr]
  exact and_iff_left hin

/-! ### How a wish is fulfilled -/

theorem fulfil?_of_request?_eq_none (hreq : n.request? l.sessions w = none) :
    l.fulfil? supply n w = none := by
  simp [fulfil?, Notebook.errand?, hreq]

/-- A wish that leads to no guard is fulfilled when it has been answered. -/
theorem fulfil?_of_ask? (hreq : n.request? l.sessions w = some request)
    (hask : l.ask? supply request = some (o, l')) (hg : o.guard? = none) :
    l.fulfil? supply n w = some ({ outcome := o }, l'.told o, n.note w o) := by
  simp [fulfil?, Notebook.errand?, hreq, Ledger.run?, hask, hg]

/-- Under a guard nothing but the bytes of the buffer matters and changes. -/
theorem use?_eq {g : Guard} {e : Entry} (he : l.buffers[g.handle.key]? = some e)
    (edits : List (Side × Region.Edit)) :
    l.use? g edits = (e.bytes.use? g.mode edits).map fun x ↦
      (x.1, { l with buffers := l.buffers.insert g.handle.key { e with bytes := x.2 } }) := by
  induction edits generalizing l e with
  | nil =>
    have hsame : l.buffers.insert g.handle.key e = l.buffers := by
      apply Std.ExtTreeMap.ext_getElem?
      intro k
      rw [getElem?_insert]
      split
      · next hk => rw [← hk, he]
      · rfl
    simp [use?, Bytes.use?, bytes?, he, hsame]
  | cons edit edits ih =>
    obtain ⟨which, change⟩ := edit
    have hagain (x y : Entry) :
        (l.buffers.insert g.handle.key x).insert g.handle.key y =
          l.buffers.insert g.handle.key y := by
      apply Std.ExtTreeMap.ext_getElem?
      intro k
      simp only [Std.ExtTreeMap.getElem?_insert]
      split <;> rfl
    simp only [use?, Bytes.use?, edit?, bytes?, he, Option.map_some, Option.bind_eq_bind,
      Option.bind_some, Option.pure_def]
    cases e.bytes.edit? which change with
    | none => rfl
    | some next =>
      by_cases hmode : g.mode = .exclusive
      · have hnext : ({ l with buffers := l.buffers.insert g.handle.key { e with bytes := next } } :
            Ledger).buffers[g.handle.key]? = some { e with bytes := next } := by
          rw [getElem?_insert, if_pos rfl]
        have hrest := ih hnext
        rw [hmode] at hrest
        simp only [hmode, guard_true, Option.pure_def, Option.bind_some, hrest, hagain]
        cases next.use? .exclusive edits <;> rfl
      · simp [hmode]

/-- A buffer that a client opens is found under its key, whether it is looked up or accessed. -/
theorem Serves.fulfil?_open (hs : l.Serves n) {b : Name} {mode : Mode}
    {edits : List (Side × Region.Edit)} (hb : n.handle? b = some h)
    (hw : w = .lookup b mode edits ∨ w = .access b mode edits) :
    l.fulfil? supply n w = match l.buffers[h.key]? with
      | none => some ({ outcome := .refused (.notFound h.key) }, l, n)
      | some e => (e.bytes.use? mode edits).map fun x ↦ (⟨.guard ⟨h, mode⟩, x.1⟩,
        { l with buffers := l.buffers.insert h.key { e with bytes := x.2 } }, n) := by
  have hin : h ∈ n.handles b.session := List.mem_of_getElem? hb
  have hedits : w.edits = edits := by obtain rfl | rfl := hw <;> rfl
  have hnote (o : Outcome) : n.note w o = n := by obtain rfl | rfl := hw <;> rfl
  obtain ⟨request, hreq, hask⟩ : ∃ request, n.request? l.sessions w = some request ∧
      l.ask? supply request = some (match l.buffers[h.key]? with
        | none => .refused (.notFound h.key)
        | some _ => .guard ⟨h, mode⟩, l) := by
    obtain rfl | rfl := hw
    · refine ⟨.lookup 0 h.key mode, by simp [Notebook.request?, hb], ?_⟩
      simp only [ask?, lookup]
      cases he : l.buffers[h.key]? with
      | none => rfl
      | some e => simp [hs.serial_eq hin he]
    · refine ⟨.access h mode, by simp [Notebook.request?, hb], ?_⟩
      simp only [ask?, access, (hs.handle hin).2.2, if_true]
      cases he : l.buffers[h.key]? with
      | none => simp
      | some e => simp [hs.serial_eq hin he]
  cases he : l.buffers[h.key]? with
  | none =>
    rw [he] at hask
    rw [fulfil?_of_ask? hreq hask rfl, hnote]
    rfl
  | some e =>
    rw [he] at hask
    have huse := use?_eq (l := l) (g := ⟨h, mode⟩) he edits
    simp only [fulfil?, Notebook.errand?, hreq, Option.map_some, Option.bind_eq_bind,
      Option.bind_some, Ledger.run?, hask, Outcome.guard?, told, hedits, huse]
    cases e.bytes.use? mode edits <;> simp [hnote]

/-! ### What becomes of a ledger and of a notebook -/

/-- What a wish does to a ledger and to a notebook: nothing, or one of five things, each of which is
the matter of one session, or storage is set up for nothing, or a number is drawn. -/
inductive Turns (l : Ledger) (n : Notebook) : Wish → Outcome → Ledger → Notebook → Prop
  | same {w : Wish} {o : Outcome} (hdrawn : o.hasDrawn = false) : Turns l n w o l n
  | attached {a : Attachment} {o : Outcome} {x : Holding} {sessions : Array Session}
    (hdrawn : o.hasDrawn = false) (hnew : n.holding a.session = none)
    (hx : x.registry? sessions = some l.registries.size)
    (hkept : ∀ (c : SessionRef) (y : Session), l.sessions[c]? = some y → sessions[c]? = some y) :
    Turns l n (.attach a) o { l with registries := l.registries.push a.session, sessions }
      (n.attached a.session x)
  | allocated {s : SessionId} {r : RegistryRef} {user kernel : UInt64}
    (hr : l.registries[r]? = some s) :
    Turns l n (.allocate s user kernel) (.handle ⟨⟨s, l.nextId⟩, l.made⟩)
      { l with
        nextId := ⟨l.nextId.number + 1⟩
        made := l.made + 1
        buffers := l.buffers.insert ⟨s, l.nextId⟩ ⟨r, l.made, .zeros user kernel⟩
        handles := ⟨⟨s, l.nextId⟩, l.made⟩ :: l.handles }
      (n.given s ⟨⟨s, l.nextId⟩, l.made⟩)
  | crowded {s : SessionId} {user kernel : UInt64} :
    Turns l n (.allocate s user kernel) (.refused (.allocationFailed user kernel))
      { l with made := l.made + 1 } n
  | freed {b : Name} {key : Key} (hkey : key.session = b.session) :
    Turns l n (.free b.session b) .done { l with buffers := l.buffers.erase key } n
  | cleared {w : Wish} {s : SessionId} {r : RegistryRef} {k : Nat} {sessions : Array Session}
    (hw : w.sessions = [s]) (hr : l.registries[r]? = some s)
    (hregistry : ∀ c : SessionRef,
      sessions[c]?.map Session.registry = l.sessions[c]?.map Session.registry)
    (hkept : ∀ (c : SessionRef) (y : Session), l.sessions[c]? = some y → y.registry ≠ r →
      sessions[c]? = some y) :
    Turns l n w (.number k)
      { l with buffers := l.buffers.filter fun _ e ↦ e.owner ≠ r, sessions } n
  | edited {w : Wish} {o : Outcome} {key : Key} {e : Entry} {bytes : Bytes}
    (hdrawn : o.hasDrawn = false) (hw : w.sessions = [key.session])
    (he : l.buffers[key]? = some e) :
    Turns l n w o { l with buffers := l.buffers.insert key { e with bytes } } n
  | drawn : Turns l n .draw (.id l.nextId) { l with nextId := ⟨l.nextId.number + 1⟩ } n

theorem told_of_not_hasDrawn (ho : o.hasDrawn = false) : l.told o = l := by
  cases o <;> first | rfl | cases ho

/-- What a teardown does. -/
private theorem turns_teardown (hr : l.registries[r]? = some s)
    (hask : l.ask? supply (.teardown 0 r) = some (o, l')) :
    l.Turns n (.teardown s) o (l'.told o) (n.note (.teardown s) o) := by
  obtain ⟨_, -, htear⟩ := Option.map_eq_some_iff.mp hask
  obtain ⟨rfl, rfl⟩ := Prod.mk.inj htear
  exact .cleared rfl hr (fun _ ↦ rfl) fun _ _ hy _ ↦ hy

/-- What the end of a session does. -/
private theorem turns_endSession {c : SessionRef} {x : Session} (hc : l.sessions[c]? = some x)
    (hr : l.registries[x.registry]? = some s)
    (hask : l.ask? supply (.endSession c) = some (o, l')) :
    l.Turns n (.endSession s) o (l'.told o) (n.note (.endSession s) o) := by
  simp only [ask?, hc, Option.map_some, Option.some.injEq, endSession] at hask
  split at hask
  · obtain ⟨rfl, rfl⟩ := Prod.mk.inj hask
    exact .same rfl
  · obtain ⟨rfl, rfl⟩ := Prod.mk.inj hask
    refine .cleared rfl hr (fun d ↦ ?_) fun d y hy hne ↦ ?_
    · rw [Array.getElem?_modify]
      split <;> cases l.sessions[d]? <;> rfl
    · rw [Array.getElem?_modify, if_neg, hy]
      rintro rfl
      cases hc.symm.trans hy
      exact hne rfl

/-- What a table is asked changes nothing. -/
private theorem turns_inspect {question : Question} (hnote : n.note w o = n)
    (hask : l.ask? supply (.inspect 0 question) = some (o, l')) :
    l.Turns n w o (l'.told o) (n.note w o) := by
  obtain ⟨rfl, rfl⟩ := Prod.mk.inj (Option.some.inj hask)
  have hdrawn : (l.inspect question).hasDrawn = false := by cases question <;> rfl
  rw [told_of_not_hasDrawn hdrawn, hnote]
  exact .same hdrawn

/-- What a registry is asked changes nothing. -/
private theorem turns_roster {action : RosterAction} (hnote : n.note w o = n)
    (hask : l.ask? supply (.roster r action) = some (o, l')) :
    l.Turns n w o (l'.told o) (n.note w o) := by
  simp only [ask?] at hask
  split at hask
  · obtain ⟨q, hread, hsame⟩ := Option.map_eq_some_iff.mp hask
    obtain ⟨rfl, rfl⟩ := Prod.mk.inj hsame
    have hdrawn : q.hasDrawn = false := by cases action <;> cases hread <;> rfl
    rw [told_of_not_hasDrawn hdrawn, hnote]
    exact .same hdrawn
  · cases hask

namespace Serves

/-- What an attachment does. -/
private theorem turns_attach {a : Attachment} (hnew : n.holding a.session = none)
    (hask : l.ask? supply (.attach a) = some (o, l')) :
    l.Turns n (.attach a) o (l'.told o) (n.note (.attach a) o) := by
  obtain ⟨capacity, hc, hattach⟩ := Option.map_eq_some_iff.mp hask
  simp only [Ledger.attach] at hattach
  split at hattach
  · split at hattach
    · obtain ⟨rfl, rfl⟩ := Prod.mk.inj hattach
      refine .attached rfl hnew (by simp [Holding.registry?]) fun c y hy ↦ ?_
      rw [Array.getElem?_push, if_neg, hy]
      exact Nat.ne_of_lt (Array.getElem?_eq_some_iff.mp hy).1
    · obtain ⟨rfl, rfl⟩ := Prod.mk.inj hattach
      exact .attached rfl hnew rfl fun c y hy ↦ hy
  · obtain ⟨rfl, rfl⟩ := Prod.mk.inj hattach
    exact .same rfl

/-- What an allocation does. -/
private theorem turns_allocate (hs : l.Serves n) (hr : n.registry? l.sessions s = some r)
    {user kernel : UInt64} (hask : l.ask? supply (.allocate 0 r user kernel) = some (o, l')) :
    l.Turns n (.allocate s user kernel) o (l'.told o) (n.note (.allocate s user kernel) o) := by
  have hregistry := hs.registry_eq_some hr
  simp only [ask?, hregistry, Option.map_some, Option.some.injEq, Ledger.allocate,
    hs.not_contains_next] at hask
  split at hask
  · split at hask
    · obtain ⟨rfl, rfl⟩ := Prod.mk.inj hask
      exact .allocated hregistry
    · obtain ⟨rfl, rfl⟩ := Prod.mk.inj hask
      exact .crowded
  · obtain ⟨rfl, rfl⟩ := Prod.mk.inj hask
    exact .same rfl

/-- An id is freed through the registry of the session that it was given to, or not at all. -/
private theorem turns_free (hs : l.Serves n) (hr : n.registry? l.sessions s = some r) {b : Name}
    (hb : n.handle? b = some h) (hask : l.ask? supply (.free 0 r h.key.buffer) = some (o, l')) :
    l.Turns n (.free s b) o (l'.told o) (n.note (.free s b) o) := by
  have hregistry := hs.registry_eq_some hr
  simp only [ask?, hregistry, Option.map_some, Option.some.injEq, Ledger.free] at hask
  split at hask
  · next howner =>
    obtain ⟨rfl, rfl⟩ := Prod.mk.inj hask
    obtain ⟨e, he, -⟩ := owner?_eq_some.mp howner
    obtain rfl : s = b.session := hs.apart (hs.entry he).2 (List.mem_of_getElem? hb) rfl
    exact .freed rfl
  · obtain ⟨rfl, rfl⟩ := Prod.mk.inj hask
    exact .same rfl

end Serves

/-- Only buffers that are opened are guarded. -/
private theorem guard?_of_ask? (hask : l.ask? supply request = some (o, l'))
    (hopens : request.opens = false) : o.guard? = none := by
  cases request with
  | attach a =>
    obtain ⟨capacity, -, hattach⟩ := Option.map_eq_some_iff.mp hask
    simp only [Ledger.attach] at hattach
    split at hattach
    · split at hattach <;> obtain ⟨rfl, -⟩ := Prod.mk.inj hattach <;> rfl
    · obtain ⟨rfl, -⟩ := Prod.mk.inj hattach
      rfl
  | allocate t r user kernel =>
    obtain _ | t := t
    · obtain ⟨session, -, halloc⟩ := Option.map_eq_some_iff.mp hask
      simp only [Ledger.allocate] at halloc
      split at halloc
      · split at halloc
        · split at halloc <;> obtain ⟨rfl, -⟩ := Prod.mk.inj halloc <;> rfl
        · obtain ⟨rfl, -⟩ := Prod.mk.inj halloc
          rfl
      · obtain ⟨rfl, -⟩ := Prod.mk.inj halloc
        rfl
    · cases hask
  | free t r id =>
    obtain _ | t := t
    · obtain ⟨session, -, hfree⟩ := Option.map_eq_some_iff.mp hask
      simp only [Ledger.free] at hfree
      split at hfree <;> obtain ⟨rfl, -⟩ := Prod.mk.inj hfree <;> rfl
    · cases hask
  | teardown t r =>
    obtain _ | t := t
    · obtain ⟨session, -, htear⟩ := Option.map_eq_some_iff.mp hask
      obtain ⟨rfl, -⟩ := Prod.mk.inj htear
      rfl
    · cases hask
  | endSession c =>
    obtain ⟨x, -, hend⟩ := Option.map_eq_some_iff.mp hask
    simp only [Ledger.endSession] at hend
    split at hend <;> obtain ⟨rfl, -⟩ := Prod.mk.inj hend <;> rfl
  | lookup t key mode | access h mode => cases hopens
  | inspect t question =>
    obtain _ | t := t
    · obtain ⟨rfl, -⟩ := Prod.mk.inj (Option.some.inj hask)
      cases question <;> rfl
    · cases hask
  | roster r action =>
    simp only [ask?] at hask
    split at hask
    · obtain ⟨_, hread, hsame⟩ := Option.map_eq_some_iff.mp hask
      obtain ⟨rfl, -⟩ := Prod.mk.inj hsame
      cases action <;> cases hread <;> rfl
    · cases hask
  | draw t =>
    obtain _ | t := t
    · obtain ⟨rfl, -⟩ := Prod.mk.inj (Option.some.inj hask)
      rfl
    · cases hask

/-- What is fulfilled without a guard has been answered. -/
private theorem asked_of_fulfil? (hf : l.fulfil? supply n w = some (receipt, l', n'))
    (hreq : n.request? l.sessions w = some request) (hopens : request.opens = false) :
    ∃ o l₁, l.ask? supply request = some (o, l₁) ∧ receipt = { outcome := o } ∧ l' = l₁.told o ∧
      n' = n.note w o := by
  obtain ⟨e, he, hrun, -⟩ := fulfil?_eq_some.mp hf
  obtain ⟨_, hsame, rfl⟩ := Option.map_eq_some_iff.mp he
  cases hreq.symm.trans hsame
  obtain ⟨⟨o, l₁⟩, hask, -⟩ := Option.bind_eq_some_iff.mp hrun
  have hg := guard?_of_ask? hask hopens
  rw [fulfil?_of_ask? hreq hask hg] at hf
  cases hf
  exact ⟨o, l₁, hask, rfl, rfl, rfl⟩

/-- What a fulfilled wish does to the ledger and to the notebook. -/
theorem Serves.turns (hs : l.Serves n) (hf : l.fulfil? supply n w = some (receipt, l', n')) :
    l.Turns n w receipt.outcome l' n' := by
  obtain ⟨e, he, -⟩ := fulfil?_eq_some.mp hf
  obtain ⟨request, hreq, -⟩ := Option.map_eq_some_iff.mp he
  have hopen {h : Handle} {b : Name} {mode : Mode} {edits : List (Side × Region.Edit)}
      (hw : w = .lookup b mode edits ∨ w = .access b mode edits) (hb : n.handle? b = some h) :
      l.Turns n w receipt.outcome l' n' := by
    have hsession := (hs.handle (List.mem_of_getElem? hb)).1
    rw [hs.fulfil?_open hb hw] at hf
    split at hf
    · cases hf
      exact .same rfl
    · next e he =>
      obtain ⟨x, -, hx⟩ := Option.map_eq_some_iff.mp hf
      cases hx
      exact .edited rfl (by obtain rfl | rfl := hw <;> simp [Wish.sessions, hsession]) he
  cases w with
  | attach a =>
    obtain ⟨hnew, rfl⟩ : n.holding a.session = none ∧ .attach a = request := by
      simpa [Notebook.request?] using hreq
    obtain ⟨o, l₁, hask, rfl, rfl, rfl⟩ := asked_of_fulfil? hf hreq rfl
    exact turns_attach hnew hask
  | allocate s user kernel =>
    obtain ⟨r, hr, rfl⟩ := Option.map_eq_some_iff.mp hreq
    obtain ⟨o, l₁, hask, rfl, rfl, rfl⟩ := asked_of_fulfil? hf hreq rfl
    exact hs.turns_allocate hr hask
  | free s b =>
    obtain ⟨r, hr, hreq'⟩ := Option.bind_eq_some_iff.mp hreq
    obtain ⟨h, hb, hreq'⟩ := Option.bind_eq_some_iff.mp hreq'
    cases hreq'
    obtain ⟨o, l₁, hask, rfl, rfl, rfl⟩ := asked_of_fulfil? hf hreq rfl
    exact hs.turns_free hr hb hask
  | teardown s =>
    obtain ⟨r, hr, rfl⟩ := Option.map_eq_some_iff.mp hreq
    obtain ⟨o, l₁, hask, rfl, rfl, rfl⟩ := asked_of_fulfil? hf hreq rfl
    exact turns_teardown (hs.registry_eq_some hr) hask
  | endSession s =>
    obtain ⟨x, hx, hreq'⟩ := Option.bind_eq_some_iff.mp hreq
    cases x with
    | registry r => cases hreq'
    | session c =>
      cases hreq'
      obtain ⟨o, l₁, hask, rfl, rfl, rfl⟩ := asked_of_fulfil? hf hreq rfl
      obtain ⟨r, hr, hregistry⟩ := hs.registry hx
      obtain ⟨y, hc, rfl⟩ := Option.map_eq_some_iff.mp hr
      exact turns_endSession hc hregistry hask
  | lookup b mode edits =>
    obtain ⟨h, hb, -⟩ := Option.map_eq_some_iff.mp hreq
    exact hopen (.inl rfl) hb
  | access b mode edits =>
    obtain ⟨h, hb, -⟩ := Option.map_eq_some_iff.mp hreq
    exact hopen (.inr rfl) hb
  | contains b =>
    obtain ⟨h, -, rfl⟩ := Option.map_eq_some_iff.mp hreq
    obtain ⟨o, l₁, hask, rfl, rfl, rfl⟩ := asked_of_fulfil? hf hreq rfl
    exact turns_inspect rfl hask
  | keysOf s | size =>
    obtain ⟨o, l₁, hask, rfl, rfl, rfl⟩ := asked_of_fulfil? hf rfl rfl
    exact turns_inspect rfl hask
  | lists wait s b =>
    obtain ⟨r, -, hreq'⟩ := Option.bind_eq_some_iff.mp hreq
    obtain ⟨h, -, hreq'⟩ := Option.bind_eq_some_iff.mp hreq'
    cases hreq'
    obtain ⟨o, l₁, hask, rfl, rfl, rfl⟩ := asked_of_fulfil? hf hreq rfl
    exact turns_roster rfl hask
  | listed s | count s =>
    obtain ⟨r, -, rfl⟩ := Option.map_eq_some_iff.mp hreq
    obtain ⟨o, l₁, hask, rfl, rfl, rfl⟩ := asked_of_fulfil? hf hreq rfl
    exact turns_roster rfl hask
  | draw =>
    obtain ⟨o, l₁, hask, rfl, rfl, rfl⟩ := asked_of_fulfil? hf rfl rfl
    cases hask
    exact .drawn

/-! ### Numbers do not come twice -/

/-- The number after the next one, as long as there is one. -/
private theorem toNat_next {id : BufferId} (h : id.number.toNat + 1 < 2 ^ 64) :
    (id.number + 1).toNat = id.number.toNat + 1 := by
  rw [UInt64.toNat_add]
  exact Nat.mod_eq_of_lt h

/-- Numbers that are drawn are counted. -/
theorem Turns.nextId (ht : l.Turns n w o l' n')
    (hroom : o.hasDrawn = true → l.nextId.number.toNat + 1 < 2 ^ 64) :
    l'.nextId.number.toNat = l.nextId.number.toNat + o.hasDrawn.toNat := by
  cases ht with
  | allocated | drawn => exact toNat_next (hroom rfl)
  | crowded | cleared | freed => rfl
  | same hdrawn | attached hdrawn | edited hdrawn => simp [hdrawn]

theorem Turns.limits (ht : l.Turns n w o l' n') : l'.limits = l.limits := by
  cases ht <;> rfl

namespace Serves

/-- A session that is attached has a registry of its own. -/
private theorem of_attached (hs : l.Serves n) {a : Attachment} {x : Holding}
    {sessions : Array Session} (hnew : n.holding a.session = none)
    (hx : x.registry? sessions = some l.registries.size)
    (hkept : ∀ (c : SessionRef) (y : Session), l.sessions[c]? = some y →
      sessions[c]? = some y) :
    Serves { l with registries := l.registries.push a.session, sessions }
      (n.attached a.session x) := by
  have hpush {r : RegistryRef} {s : SessionId} :
      (l.registries.push a.session)[r]? = some s ↔
        r = l.registries.size ∧ s = a.session ∨ l.registries[r]? = some s := by
    rw [Array.getElem?_push]
    split
    · next hr =>
      subst hr
      simp [eq_comm]
    · next hr => simp [hr]
  constructor
  case distinct =>
    intro q r s hq hr
    obtain ⟨rfl, rfl⟩ | hq := hpush.mp hq <;> obtain ⟨rfl, hsession⟩ | hr := hpush.mp hr
    · rfl
    · exact absurd hr (hs.unattached hnew)
    · exact absurd (hsession ▸ hq) (hs.unattached hnew)
    · exact hs.distinct hq hr
  case registry =>
    intro s y hy
    rw [Notebook.holding_attached] at hy
    split at hy
    · next hsession =>
      cases hy
      exact ⟨_, hx, hpush.mpr (.inl ⟨rfl, hsession⟩)⟩
    · obtain ⟨r, hr, hregistry⟩ := hs.registry hy
      refine ⟨r, ?_, hpush.mpr (.inr hregistry)⟩
      cases y with
      | registry q => exact hr
      | session c =>
        obtain ⟨y, hc, rfl⟩ := Option.map_eq_some_iff.mp hr
        exact Option.map_eq_some_iff.mpr ⟨y, hkept c y hc, rfl⟩
  case unattached =>
    intro s r hnone hr
    rw [Notebook.holding_attached] at hnone
    split at hnone
    · cases hnone
    · next hsession =>
      obtain ⟨-, hsame⟩ | hr := hpush.mp hr
      · exact hsession hsame
      · exact hs.unattached hnone hr
  case entry =>
    intro key e he
    obtain ⟨howner, hin⟩ := hs.entry he
    exact ⟨hpush.mpr (.inr howner), hin⟩
  case handle => exact hs.handle
  case ascending => exact hs.ascending
  case apart => exact hs.apart

/-- A buffer that is allocated has a number that has not come before. -/
private theorem of_allocated (hs : l.Serves n) {user kernel : UInt64}
    (hr : l.registries[r]? = some s) (hroom : l.nextId.number.toNat + 1 < 2 ^ 64) :
    Serves
      { l with
        nextId := ⟨l.nextId.number + 1⟩
        made := l.made + 1
        buffers := l.buffers.insert ⟨s, l.nextId⟩ ⟨r, l.made, .zeros user kernel⟩
        handles := ⟨⟨s, l.nextId⟩, l.made⟩ :: l.handles }
      (n.given s ⟨⟨s, l.nextId⟩, l.made⟩) := by
  have hnext := toNat_next hroom
  have hmem {t : SessionId} {g : Handle} := n.mem_handles_given s t g ⟨⟨s, l.nextId⟩, l.made⟩
  have hold {t : SessionId} {g : Handle} (hg : g ∈ n.handles t) :
      g.key.buffer ≠ l.nextId := fun hsame ↦
    UInt64.lt_irrefl _ (hsame ▸ (hs.handle hg).2.1)
  constructor
  case distinct => exact hs.distinct
  case registry => exact hs.registry
  case unattached => exact hs.unattached
  case entry =>
    intro key e he
    rw [getElem?_insert] at he
    split at he
    · next hkey =>
      subst hkey
      cases he
      exact ⟨hr, hmem.mpr (.inr ⟨rfl, rfl⟩)⟩
    · obtain ⟨howner, hin⟩ := hs.entry he
      exact ⟨howner, hmem.mpr (.inl hin)⟩
  case handle =>
    intro t g hg
    rw [UInt64.lt_iff_toNat_lt, hnext]
    obtain hg | ⟨rfl, rfl⟩ := hmem.mp hg
    · obtain ⟨hsession, hlt, hin⟩ := hs.handle hg
      rw [UInt64.lt_iff_toNat_lt] at hlt
      exact ⟨hsession, by omega, List.mem_cons_of_mem _ hin⟩
    · exact ⟨rfl, Nat.lt_succ_self _, List.mem_cons_self⟩
  case ascending =>
    intro t
    rw [Notebook.handles_given]
    split
    · refine List.pairwise_append.mpr
        ⟨hs.ascending s, List.pairwise_singleton _ _, fun g hg h hh ↦ ?_⟩
      obtain rfl := List.mem_singleton.mp hh
      exact (hs.handle hg).2.1
    · exact hs.ascending t
  case apart =>
    intro t u g h hgiven hgiven' hsame
    obtain hg | ⟨rfl, rfl⟩ := hmem.mp hgiven <;> obtain hh | ⟨rfl, rfl⟩ := hmem.mp hgiven'
    · exact hs.apart hg hh hsame
    · exact absurd hsame (hold hg)
    · exact absurd hsame.symm (hold hh)
    · rfl

/-- Whatever a client wants, sessions keep to their registries and numbers do not come twice. -/
theorem of_turns (hs : l.Serves n) (ht : l.Turns n w o l' n')
    (hroom : o.hasDrawn = true → l.nextId.number.toNat + 1 < 2 ^ 64) : l'.Serves n' := by
  cases ht with
  | same => exact hs
  | crowded => exact { hs with }
  | attached _ hnew hx hkept => exact hs.of_attached hnew hx hkept
  | allocated hr => exact hs.of_allocated hr (hroom rfl)
  | freed =>
    refine { hs with entry := fun {key e} he ↦ ?_ }
    rw [getElem?_erase] at he
    split at he
    · cases he
    · exact hs.entry he
  | @cleared _ s r _ sessions _ hr hregistry =>
    refine { hs with registry := fun {t x} hx ↦ ?_, entry := fun {key e} he ↦ ?_ }
    · obtain ⟨q, hq, hsession⟩ := hs.registry hx
      refine ⟨q, ?_, hsession⟩
      cases x with
      | registry q => exact hq
      | session c => exact (hregistry c).trans hq
    · rw [getElem?_filter_owner] at he
      split at he
      · cases he
      · exact hs.entry he
  | edited _ _ he =>
    refine { hs with entry := fun {key' e'} he' ↦ ?_ }
    rw [getElem?_insert] at he'
    split at he'
    · next hkey =>
      subst hkey
      cases he'
      have hentry := hs.entry he
      exact hentry
    · exact hs.entry he'
  | drawn =>
    have hnext := toNat_next (hroom rfl)
    refine { hs with handle := fun {s h} hh ↦ ?_ }
    obtain ⟨hsession, hlt, hin⟩ := hs.handle hh
    rw [UInt64.lt_iff_toNat_lt] at hlt
    refine ⟨hsession, ?_, hin⟩
    rw [UInt64.lt_iff_toNat_lt, hnext]
    omega

end Serves

end Ledger

end SessionBuffers
