import SessionBuffers.Proofs.Serving

/-!
# What a session has of a table

A session's `Share` of a table is the bytes of its buffers in the order in which they were
allocated, and whether it has been attached and ended. It says nothing of other sessions and of ids.
Whatever a client does, a share is changed only by what is done with its session
(`Ledger.Serves.share_kept`), and how it is changed and what the client is told is settled by the
share itself (`Ledger.Serves.reports`).
-/

namespace SessionBuffers

/-! ### A session by itself -/

/-- What a client works through, and whether it has ended the session. -/
inductive Tenure where
  | registry
  | session (ended : Bool)
  deriving DecidableEq

/-- What a session has of a table. -/
@[ext]
structure Share where
  tenure : Option Tenure := none
  /-- The bytes of its buffers in the order in which they were allocated; nothing for those that
  have been taken out. -/
  buffers : List (Option Bytes) := []

/-- What a client is told about a session, with buffers by their position among those that have been
allocated for it. -/
inductive Report where
  | registry
  | session
  | done
  | flag (b : Bool)
  | number (n : Nat)
  | keys (ks : List Nat)
  | handle (k : Nat)
  | guard (k : Nat) (mode : Mode) (seen : List Bytes)
  | notFound (k : Nat)
  | failed (user kernel : UInt64)

/-- The room for keys that a registry is attached with. -/
def Limits.capacity? (limits : Limits) : Purpose → Option UInt64
  | .alone capacity => some capacity
  | .table 0 | .session 0 => some limits.sessionCapacity
  | _ => none

/-- How a client works through what it has been given. -/
def Holding.tenure (sessions : Array Session) : Holding → Tenure
  | registry _ => .registry
  | session c => .session ((sessions[c]?.map Session.ended).getD false)

/-- How a client works that has attached a registry. -/
def Purpose.tenure : Purpose → Tenure
  | .session _ => .session false
  | _ => .registry

namespace Share

/-- The positions of the buffers that have not been taken out. -/
def present (x : Share) : List Nat :=
  (List.range x.buffers.length).filter fun k ↦ x.buffers[k]?.join.isSome

/-- Nothing is left. -/
def cleared (x : Share) : Share := { x with buffers := x.buffers.map fun _ ↦ none }

/-- A buffer is found unless it has been taken out, and used under a guard. -/
def use? (x : Share) (k : Nat) (mode : Mode) (edits : List (Side × Region.Edit)) :
    Option (Report × Share) := do
  match ← x.buffers[k]? with
  | none => return (.notFound k, x)
  | some bytes =>
    let (seen, last) ← bytes.use? mode edits
    return (.guard k mode seen, { x with buffers := x.buffers.set k (some last) })

/-- What a client is told that wants something done with a session, and what the session has then;
nothing when the client has not been given what it takes. -/
def serve? (supply : Supply) (limits : Limits) (x : Share) : Wish → Option (Report × Share)
  | .attach a =>
    if x.tenure.isSome then none
    else (limits.capacity? a.purpose).map fun capacity ↦
      if supply.roster capacity then
        (match a.purpose with
        | .session _ => .session
        | _ => .registry, { x with tenure := some a.purpose.tenure })
      else (.failed 0 (.ofNat (min (capacity.toNat * Supply.keyBytes) (UInt64.size - 1))), x)
  | .allocate _ user kernel => x.tenure.map fun _ ↦
    if limits.permits user kernel && supply.regions user kernel && supply.slot user kernel then
      (.handle x.buffers.length, { x with buffers := x.buffers ++ [some (.zeros user kernel)] })
    else (.failed user kernel, x)
  | .free _ b => do
    let _ ← x.tenure
    match ← x.buffers[b.nth]? with
    | none => return (.notFound b.nth, x)
    | some _ => return (.done, { x with buffers := x.buffers.set b.nth none })
  | .teardown _ => x.tenure.map fun _ ↦ (.number x.present.length, x.cleared)
  | .endSession _ =>
    match x.tenure with
    | some (.session true) => some (.number 0, x)
    | some (.session false) =>
      some (.number x.present.length, { x.cleared with tenure := some (.session true) })
    | _ => none
  | .lookup b mode edits | .access b mode edits => x.use? b.nth mode edits
  | .contains b => x.buffers[b.nth]?.map fun held ↦ (.flag held.isSome, x)
  | .keysOf _ => some (.keys x.present, x)
  | .lists _ _ b => do
    let _ ← x.tenure
    let held ← x.buffers[b.nth]?
    return (.flag held.isSome, x)
  | .listed _ => x.tenure.map fun _ ↦ (.keys x.present, x)
  | .count _ => x.tenure.map fun _ ↦ (.number x.present.length, x)
  | .size | .draw => none

end Share

/-! ### Answers but for numbers -/

/-- The outcome with ids renamed, and without the numbers of registries, sessions and storage, which
say only what has been set up before. -/
def Outcome.plain (ρ : BufferId → BufferId) : Outcome → Outcome
  | .id b => .id (ρ b)
  | .keys ks => .keys (ks.map fun key ↦ ⟨key.session, ρ key.buffer⟩)
  | .handle h => .handle ⟨⟨h.key.session, ρ h.key.buffer⟩, 0⟩
  | .guard g => .guard ⟨⟨⟨g.handle.key.session, ρ g.handle.key.buffer⟩, 0⟩, g.mode⟩
  | .registry _ => .registry 0
  | .session _ => .session 0
  | .refused (.duplicateKey key) => .refused (.duplicateKey ⟨key.session, ρ key.buffer⟩)
  | .refused (.notFound key) => .refused (.notFound ⟨key.session, ρ key.buffer⟩)
  | o => o

/-- The receipt with ids renamed, and without the numbers of registries, sessions and storage. -/
def Receipt.plain (ρ : BufferId → BufferId) (receipt : Receipt) : Receipt :=
  { receipt with outcome := receipt.outcome.plain ρ }

/-- A report as the receipt that it is when buffers have certain ids. -/
def Report.receipt (s : SessionId) (ids : Nat → BufferId) : Report → Receipt
  | registry => { outcome := .registry 0 }
  | session => { outcome := .session 0 }
  | done => { outcome := .done }
  | flag b => { outcome := .flag b }
  | number n => { outcome := .number n }
  | keys ks => { outcome := .keys (ks.map fun k ↦ ⟨s, ids k⟩) }
  | handle k => { outcome := .handle ⟨⟨s, ids k⟩, 0⟩ }
  | guard k mode seen => ⟨.guard ⟨⟨⟨s, ids k⟩, 0⟩, mode⟩, seen⟩
  | notFound k => { outcome := .refused (.notFound ⟨s, ids k⟩) }
  | failed user kernel => { outcome := .refused (.allocationFailed user kernel) }

/-- Other ids are another receipt of the same. -/
theorem Report.plain_receipt (s : SessionId) (ids : Nat → BufferId) (ρ : BufferId → BufferId)
    (report : Report) : (report.receipt s ids).plain ρ = report.receipt s (ρ ∘ ids) := by
  cases report <;> simp [receipt, Receipt.plain, Outcome.plain]

/-- What a receipt is but for numbers does not depend on those. -/
theorem Receipt.plain_plain (ρ : BufferId → BufferId) (receipt : Receipt) :
    (receipt.plain id).plain ρ = receipt.plain ρ := by
  obtain ⟨outcome, seen⟩ := receipt
  cases outcome with
  | refused why => cases why <;> rfl
  | keys ks => simp [plain, Outcome.plain]
  | _ => rfl

@[simp] theorem Outcome.hasDrawn_plain (ρ : BufferId → BufferId) (o : Outcome) :
    (o.plain ρ).hasDrawn = o.hasDrawn := by
  cases o with
  | refused why => cases why <;> rfl
  | _ => rfl

namespace Ledger

variable {supply : Supply} {l l' : Ledger} {n n' : Notebook} {w : Wish} {o : Outcome}
  {receipt : Receipt} {request : Request} {s t : SessionId} {r : RegistryRef} {key : Key}
  {g h : Handle}

/-- What a session has of the buffers of a ledger, as far as a client has noted. -/
def share (l : Ledger) (n : Notebook) (s : SessionId) : Share where
  tenure := (n.holding s).map (Holding.tenure l.sessions)
  buffers := (n.handles s).map fun h ↦ l.bytes? h.key

theorem contains_eq_isSome_bytes? (l : Ledger) (key : Key) :
    l.buffers.contains key = (l.bytes? key).isSome := by
  rw [Std.ExtTreeMap.contains_eq_isSome_getElem?, bytes?, Option.isSome_map]

theorem getElem?_buffers_share (l : Ledger) (n : Notebook) (s : SessionId) (k : Nat) :
    (l.share n s).buffers[k]? = (n.handles s)[k]?.map fun h ↦ l.bytes? h.key :=
  List.getElem?_map ..

/-- The keys of a session's buffers by their positions. -/
theorem Serves.keys_eq_present (hs : l.Serves n) (s : SessionId) {ids : Nat → BufferId}
    (hids : n.Numbers s ids) :
    l.buffers.keys.filter (fun key ↦ key.session = s) =
      (l.share n s).present.map fun k ↦ ⟨s, ids k⟩ := by
  have hkeys : (n.handles s).map Handle.key =
      (List.range (n.handles s).length).map fun k ↦ ⟨s, ids k⟩ := by
    apply List.ext_getElem?
    intro k
    rw [List.getElem?_map, List.getElem?_map]
    cases hk : (n.handles s)[k]? with
    | none =>
      rw [List.getElem?_eq_none (by simpa using hk)]
      rfl
    | some h =>
      have hlt : k < (n.handles s).length := (List.getElem?_eq_some_iff.mp hk).1
      have hsession := (hs.handle (List.mem_of_getElem? hk)).1
      rw [List.getElem?_range hlt, Option.map_some, Option.map_some, hids k h hk, ← hsession]
  rw [hs.keys_eq, hkeys, List.filter_map, Share.present]
  congr 1
  simp only [share, List.length_map]
  refine List.filter_congr fun k hk ↦ ?_
  obtain ⟨h, hh⟩ : ∃ h, (n.handles s)[k]? = some h :=
    ⟨_, List.getElem?_eq_getElem (List.mem_range.mp hk)⟩
  have hsession := (hs.handle (List.mem_of_getElem? hh)).1
  have hkey : (⟨s, ids k⟩ : Key) = h.key := by rw [hids k h hh, ← hsession]
  simp [hkey, contains_eq_isSome_bytes?, hh]

/-! ### Sessions are spared -/

/-- What a session has is read off what has been noted for it and the bytes of its buffers. -/
theorem share_congr (hholding : n'.holding s = n.holding s) (hhandles : n'.handles s = n.handles s)
    (hsessions : ∀ c, n.holding s = some (.session c) →
      l'.sessions[c]?.map Session.ended = l.sessions[c]?.map Session.ended)
    (hbytes : ∀ h ∈ n.handles s, l'.bytes? h.key = l.bytes? h.key) :
    l'.share n' s = l.share n s := by
  apply Share.ext
  · simp only [share, hholding]
    apply Option.map_congr
    intro x hx
    cases x with
    | registry r => rfl
    | session c => simp only [Holding.tenure, hsessions c hx]
  · simp only [share, hhandles]
    exact List.map_congr_left hbytes

/-- Nothing that is not a matter of a session changes what it has. -/
theorem Serves.share_kept (hs : l.Serves n) (ht : l.Turns n w o l' n') (hw : w.isOf s = false) :
    l'.share n' s = l.share n s ∧ n'.handles s = n.handles s := by
  have hother {t : SessionId} (hsessions : w.sessions = [t]) : t ≠ s := by
    rintro rfl
    simp [Wish.isOf, Wish.spares, hsessions] at hw
  have hkey {h : Handle} (hh : h ∈ n.handles s) {t : SessionId} (ht : t ≠ s) {key : Key}
      (hkey : key.session = t) : key ≠ h.key := by
    rintro rfl
    exact ht (hkey.symm.trans (hs.handle hh).1)
  cases ht with
  | same | crowded | drawn => exact ⟨rfl, rfl⟩
  | @attached a _ x sessions _ hnew hx hkept =>
    have hne := hother (t := a.session) rfl
    refine ⟨share_congr (by simp [Ne.symm hne]) rfl (fun c hc ↦ ?_) fun _ _ ↦ rfl, rfl⟩
    obtain ⟨r, hr, -⟩ := hs.registry hc
    obtain ⟨y, hy, -⟩ := Option.map_eq_some_iff.mp hr
    rw [hkept c y hy, hy]
  | @allocated t r user kernel hr =>
    have hne := hother (t := t) rfl
    have hhandles : (n.given t ⟨⟨t, l.nextId⟩, l.made⟩).handles s = n.handles s := by
      simp [Ne.symm hne]
    refine ⟨share_congr rfl hhandles (fun _ _ ↦ rfl) fun h hh ↦ ?_, hhandles⟩
    rw [bytes?, getElem?_insert, if_neg (hkey hh hne rfl), bytes?]
  | @freed b key hsession =>
    have hne : b.session ≠ s := by
      intro he
      simp [Wish.isOf, Wish.spares, Wish.sessions, he] at hw
    refine ⟨share_congr rfl rfl (fun _ _ ↦ rfl) fun h hh ↦ ?_, rfl⟩
    rw [bytes?, getElem?_erase, if_neg (hkey hh hne hsession), bytes?]
  | @cleared _ t r _ sessions hsessions hr hregistry hkept =>
    have hne := hother hsessions
    refine ⟨share_congr rfl rfl (fun c hc ↦ ?_) fun h hh ↦ ?_, rfl⟩
    · obtain ⟨q, hq, hsession⟩ := hs.registry hc
      obtain ⟨y, hy, rfl⟩ := Option.map_eq_some_iff.mp hq
      rw [hkept c y hy, hy]
      rintro rfl
      exact hne (Option.some.inj (hr.symm.trans hsession))
    · rw [bytes?, getElem?_filter_owner, if_neg, bytes?]
      intro howner
      exact hkey hh hne ((hs.owner?_eq_some_iff hr).mp howner).1 rfl
  | @edited _ _ key e bytes _ hsessions he =>
    refine ⟨share_congr rfl rfl (fun _ _ ↦ rfl) fun h hh ↦ ?_, rfl⟩
    rw [bytes?, getElem?_insert, if_neg (hkey hh (hother hsessions) rfl), bytes?]

/-! ### What a session has settles what its client is told -/

theorem fulfil?_of_ask?_eq_none (hreq : n.request? l.sessions w = some request)
    (hask : l.ask? supply request = none) : l.fulfil? supply n w = none := by
  simp [fulfil?, Notebook.errand?, hreq, Ledger.run?, hask]

/-- A receipt is what a report says once buffers have ids, and what has become of a share is there
to see. -/
structure Tells (s : SessionId) (x : Receipt × Ledger × Notebook) (y : Report × Share) : Prop where
  receipt : ∀ ids, x.2.2.Numbers s ids → x.1.plain id = y.1.receipt s ids
  share : x.2.1.share x.2.2 s = y.2

namespace Serves

/-- When the bytes of one buffer change, the share changes at one position. -/
theorem buffers_set (hs : l.Serves n) {k : Nat} (hk : (n.handles s)[k]? = some h)
    {bytes : Option Bytes}
    (hbytes : ∀ key, l'.bytes? key = if h.key = key then bytes else l.bytes? key) :
    (l'.share n s).buffers = (l.share n s).buffers.set k bytes := by
  apply List.ext_getElem?
  intro j
  rw [List.getElem?_set, getElem?_buffers_share, getElem?_buffers_share]
  by_cases hkj : k = j
  · subst hkj
    have hlt : k < (l.share n s).buffers.length := by
      simpa [Ledger.share] using (List.getElem?_eq_some_iff.mp hk).1
    rw [if_pos rfl, if_pos hlt, hk, Option.map_some, hbytes, if_pos rfl]
  · rw [if_neg hkj]
    cases hj : (n.handles s)[j]? with
    | none => rfl
    | some g =>
      rw [Option.map_some, Option.map_some, hbytes, if_neg]
      exact fun hkey ↦ hkj (hs.position_unique hk hj hkey)

/-- What is done through a registry can be done once a session is attached. -/
theorem registry_cases (hs : l.Serves n) (s : SessionId) :
    (n.registry? l.sessions s = none ∧ (l.share n s).tenure = none) ∨
      ∃ r y, n.registry? l.sessions s = some r ∧ l.registries[r]? = some s ∧
        (l.share n s).tenure = some y := by
  cases hx : n.holding s with
  | none => exact .inl ⟨by simp [Notebook.registry?, hx], by simp [Ledger.share, hx]⟩
  | some x =>
    obtain ⟨r, hr, hregistry⟩ := hs.registry hx
    exact .inr ⟨r, x.tenure l.sessions, by simp [Notebook.registry?, hx, hr], hregistry,
      by simp [Ledger.share, hx]⟩

end Serves

theorem capacity?_eq (l : Ledger) (purpose : Purpose) :
    l.capacity? purpose = l.limits.capacity? purpose := by
  cases purpose with
  | alone capacity => rfl
  | table t | session t => cases t <;> rfl

private theorem reports_attach (a : Attachment) :
    Option.Rel (Tells a.session) (l.fulfil? supply n (.attach a))
      ((l.share n a.session).serve? supply l.limits (.attach a)) := by
  cases hx : n.holding a.session with
  | some x =>
    rw [fulfil?_of_request?_eq_none (by simp [Notebook.request?, hx])]
    simp only [Share.serve?, Ledger.share, hx, Option.map_some, Option.isSome_some, if_true]
    exact .none
  | none =>
    have hreq : n.request? l.sessions (.attach a) = some (.attach a) := by
      simp [Notebook.request?, hx]
    have htenure : (l.share n a.session).tenure = none := by simp [Ledger.share, hx]
    simp only [Share.serve?, htenure, Option.isSome_none, Bool.false_eq_true, if_false]
    cases hc : l.limits.capacity? a.purpose with
    | none =>
      rw [fulfil?_of_ask?_eq_none hreq (by rw [ask?, capacity?_eq, hc]; rfl)]
      exact .none
    | some capacity =>
      have hask : l.ask? supply (.attach a) = some (l.attach supply a capacity) := by
        rw [ask?, capacity?_eq, hc]
        rfl
      rw [Option.map_some]
      cases hroom : supply.roster capacity with
      | false =>
        simp only [Ledger.attach, hroom, Bool.false_eq_true, if_false] at hask ⊢
        rw [fulfil?_of_ask? hreq hask rfl]
        exact .some ⟨fun ids _ ↦ rfl, rfl⟩
      | true =>
        simp only [Ledger.attach, hroom, if_true] at hask ⊢
        cases hp : a.purpose with
        | session t =>
          rw [hp] at hask
          rw [fulfil?_of_ask? hreq hask rfl]
          refine .some ⟨fun ids _ ↦ rfl, Share.ext ?_ rfl⟩
          simp [Ledger.share, Notebook.note, told, Holding.tenure, Purpose.tenure]
        | alone room | table t =>
          rw [hp] at hask
          rw [fulfil?_of_ask? hreq hask rfl]
          refine .some ⟨fun ids _ ↦ rfl, Share.ext ?_ rfl⟩
          simp [Ledger.share, Notebook.note, Holding.tenure, Purpose.tenure]

namespace Serves

private theorem reports_allocate (hs : l.Serves n) (user kernel : UInt64) :
    Option.Rel (Tells s) (l.fulfil? supply n (.allocate s user kernel))
      ((l.share n s).serve? supply l.limits (.allocate s user kernel)) := by
  obtain ⟨hr, htenure⟩ | ⟨r, y, hr, hregistry, htenure⟩ := hs.registry_cases s
  · rw [fulfil?_of_request?_eq_none (by simp [Notebook.request?, hr])]
    simp only [Share.serve?, htenure]
    exact .none
  · have hreq : n.request? l.sessions (.allocate s user kernel) =
        some (.allocate 0 r user kernel) := by simp [Notebook.request?, hr]
    have hask : l.ask? supply (.allocate 0 r user kernel) =
        some (l.allocate supply r s user kernel) := by simp [ask?, hregistry]
    simp only [Share.serve?, htenure, Option.map_some]
    cases hmet : l.limits.permits user kernel && supply.regions user kernel with
    | false =>
      simp only [Ledger.allocate, hmet, Bool.false_and, Bool.false_eq_true, if_false] at hask ⊢
      rw [fulfil?_of_ask? hreq hask rfl]
      exact .some ⟨fun ids _ ↦ rfl, rfl⟩
    | true =>
      cases hslot : supply.slot user kernel with
      | false =>
        simp only [Ledger.allocate, hmet, hslot, Bool.true_and, if_true, Bool.false_eq_true,
          if_false] at hask ⊢
        rw [fulfil?_of_ask? hreq hask rfl]
        exact .some ⟨fun ids _ ↦ rfl, rfl⟩
      | true =>
        simp only [Ledger.allocate, hmet, hslot, Bool.true_and, if_true, hs.not_contains_next,
          Bool.false_eq_true, if_false] at hask ⊢
        rw [fulfil?_of_ask? hreq hask rfl]
        refine .some ⟨fun ids hids ↦ ?_, Share.ext htenure ?_⟩
        · have hlast := hids (n.handles s).length ⟨⟨s, l.nextId⟩, l.made⟩
            (by simp [Notebook.note])
          simp [Receipt.plain, Outcome.plain, Report.receipt, Ledger.share, hlast]
        · have hold : ∀ h ∈ n.handles s,
              ((l.buffers.insert ⟨s, l.nextId⟩ ⟨r, l.made, .zeros user kernel⟩)[h.key]?).map
                Entry.bytes = l.bytes? h.key := fun h hh ↦ by
            rw [getElem?_insert, if_neg, bytes?]
            rintro hkey
            exact UInt64.lt_irrefl _ (hkey ▸ (hs.handle hh).2.1)
          simpa [Ledger.share, Notebook.note, told, bytes?] using hold

private theorem reports_free (hs : l.Serves n) {b : Name} (hb : b.session = s) :
    Option.Rel (Tells s) (l.fulfil? supply n (.free s b))
      ((l.share n s).serve? supply l.limits (.free s b)) := by
  obtain ⟨hr, htenure⟩ | ⟨r, y, hr, hregistry, htenure⟩ := hs.registry_cases s
  · rw [fulfil?_of_request?_eq_none (by simp [Notebook.request?, hr])]
    simp only [Share.serve?, htenure]
    exact .none
  · simp only [Share.serve?, htenure, Option.bind_eq_bind, Option.bind_some,
      getElem?_buffers_share]
    cases hk : (n.handles s)[b.nth]? with
    | none =>
      rw [fulfil?_of_request?_eq_none (by simp [Notebook.request?, hr, Notebook.handle?, hb, hk])]
      exact .none
    | some h =>
      obtain ⟨hsession, -⟩ := hs.handle (List.mem_of_getElem? hk)
      have hkey : (⟨s, h.key.buffer⟩ : Key) = h.key := by rw [← hsession]
      have hreq : n.request? l.sessions (.free s b) = some (.free 0 r h.key.buffer) := by
        simp [Notebook.request?, hr, Notebook.handle?, hb, hk]
      have hask : l.ask? supply (.free 0 r h.key.buffer) = some (l.free r h.key) := by
        simp [ask?, hregistry, hkey]
      rw [Option.map_some, Option.bind_some]
      cases hbytes : l.bytes? h.key with
      | none =>
        have hnot : l.owner? h.key ≠ some r := by
          rw [ne_eq, hs.owner?_eq_some_iff hregistry, contains_eq_isSome_bytes?, hbytes]
          simp
        simp only [Ledger.free, if_neg hnot] at hask
        rw [fulfil?_of_ask? hreq hask rfl]
        refine .some ⟨fun ids hids ↦ ?_, rfl⟩
        simp [Receipt.plain, Outcome.plain, Report.receipt, hids _ h hk, hsession]
      | some bytes =>
        have howner : l.owner? h.key = some r := by
          rw [hs.owner?_eq_some_iff hregistry, contains_eq_isSome_bytes?, hbytes]
          exact ⟨hsession, rfl⟩
        simp only [Ledger.free, if_pos howner] at hask
        rw [fulfil?_of_ask? hreq hask rfl]
        refine .some ⟨fun ids _ ↦ rfl, Share.ext htenure (hs.buffers_set hk fun key ↦ ?_)⟩
        simp only [told, bytes?, getElem?_erase]
        split <;> rfl

/-- A session's registry owns as many buffers as are present. -/
private theorem length_owned (hs : l.Serves n) (hr : l.registries[r]? = some s) :
    (l.owned r).length = (l.share n s).present.length := by
  rw [hs.owned_eq hr, hs.keys_eq_present s (n.numbers_ids s), List.length_map]

/-- When everything its registry owns is taken out, nothing of a session is left. -/
private theorem buffers_cleared (hs : l.Serves n) (hr : l.registries[r]? = some s)
    (hbuffers : l'.buffers = l.buffers.filter fun _ e ↦ e.owner ≠ r) :
    (l'.share n s).buffers = (l.share n s).cleared.buffers := by
  simp only [Ledger.share, Share.cleared, List.map_map]
  refine List.map_congr_left fun h hh ↦ ?_
  rw [Function.comp_apply, bytes?, hbuffers, getElem?_filter_owner]
  split
  · rfl
  · next hnot =>
    rw [hs.owner?_eq_some_iff hr, not_and] at hnot
    have hout := hnot (hs.handle hh).1
    rwa [contains_eq_isSome_bytes?, Option.not_isSome_iff_eq_none] at hout

private theorem reports_teardown (hs : l.Serves n) :
    Option.Rel (Tells s) (l.fulfil? supply n (.teardown s))
      ((l.share n s).serve? supply l.limits (.teardown s)) := by
  obtain ⟨hr, htenure⟩ | ⟨r, y, hr, hregistry, htenure⟩ := hs.registry_cases s
  · rw [fulfil?_of_request?_eq_none (by simp [Notebook.request?, hr])]
    simp only [Share.serve?, htenure]
    exact .none
  · have hreq : n.request? l.sessions (.teardown s) = some (.teardown 0 r) := by
      simp [Notebook.request?, hr]
    have hask : l.ask? supply (.teardown 0 r) = some (l.teardown r) := by simp [ask?, hregistry]
    simp only [Share.serve?, htenure, Option.map_some]
    rw [fulfil?_of_ask? hreq hask rfl]
    refine .some ⟨fun ids _ ↦ ?_, Share.ext rfl (hs.buffers_cleared hregistry rfl)⟩
    exact congrArg (fun k ↦ ({ outcome := .number k } : Receipt)) (hs.length_owned hregistry)

private theorem reports_endSession (hs : l.Serves n) :
    Option.Rel (Tells s) (l.fulfil? supply n (.endSession s))
      ((l.share n s).serve? supply l.limits (.endSession s)) := by
  cases hx : n.holding s with
  | none =>
    rw [fulfil?_of_request?_eq_none (by simp [Notebook.request?, hx])]
    simp only [Share.serve?, Ledger.share, hx]
    exact .none
  | some x =>
    cases x with
    | registry r =>
      rw [fulfil?_of_request?_eq_none (by simp [Notebook.request?, hx])]
      simp only [Share.serve?, Ledger.share, hx, Option.map_some, Holding.tenure]
      exact .none
    | session c =>
      obtain ⟨r, hr, hregistry⟩ := hs.registry hx
      obtain ⟨y, hc, rfl⟩ := Option.map_eq_some_iff.mp hr
      have hreq : n.request? l.sessions (.endSession s) = some (.endSession c) := by
        simp [Notebook.request?, hx]
      have hask : l.ask? supply (.endSession c) = some (l.endSession c y) := by simp [ask?, hc]
      have htenure : (l.share n s).tenure = some (.session y.ended) := by
        simp [Ledger.share, hx, Holding.tenure, hc]
      cases he : y.ended with
      | true =>
        simp only [Ledger.endSession, he, if_true] at hask
        simp only [Share.serve?, htenure, he]
        rw [fulfil?_of_ask? hreq hask rfl]
        exact .some ⟨fun ids _ ↦ rfl, rfl⟩
      | false =>
        simp only [Ledger.endSession, he, Bool.false_eq_true, if_false] at hask
        simp only [Share.serve?, htenure, he]
        rw [fulfil?_of_ask? hreq hask rfl]
        refine .some ⟨fun ids _ ↦ ?_, Share.ext ?_ (hs.buffers_cleared hregistry rfl)⟩
        · exact congrArg (fun k ↦ ({ outcome := .number k } : Receipt)) (hs.length_owned hregistry)
        · simp [Ledger.share, Notebook.note, told, hx, Holding.tenure, Array.getElem?_modify, hc]

private theorem reports_open (hs : l.Serves n) {b : Name} (hb : b.session = s) {mode : Mode}
    {edits : List (Side × Region.Edit)} (hw : w = .lookup b mode edits ∨ w = .access b mode edits) :
    Option.Rel (Tells s) (l.fulfil? supply n w)
      ((l.share n s).serve? supply l.limits w) := by
  have hserve : (l.share n s).serve? supply l.limits w = (l.share n s).use? b.nth mode edits := by
    obtain rfl | rfl := hw <;> rfl
  rw [hserve, Share.use?, getElem?_buffers_share]
  cases hk : (n.handles s)[b.nth]? with
  | none =>
    have hnone : n.request? l.sessions w = none := by
      obtain rfl | rfl := hw <;> simp [Notebook.request?, Notebook.handle?, hb, hk]
    rw [fulfil?_of_request?_eq_none hnone]
    exact .none
  | some h =>
    have hhandle : n.handle? b = some h := by rw [Notebook.handle?, hb, hk]
    obtain ⟨hsession, -⟩ := hs.handle (List.mem_of_getElem? hk)
    rw [hs.fulfil?_open hhandle hw]
    simp only [bytes?, Option.map_some, Option.bind_eq_bind, Option.bind_some]
    cases he : l.buffers[h.key]? with
    | none =>
      refine .some ⟨fun ids hids ↦ ?_, rfl⟩
      simp [Receipt.plain, Outcome.plain, Report.receipt, hids _ h hk, hsession]
    | some e =>
      simp only [Option.map_some]
      cases e.bytes.use? mode edits with
      | none => exact .none
      | some x =>
        refine .some ⟨fun ids hids ↦ ?_, Share.ext rfl (hs.buffers_set hk fun key ↦ ?_)⟩
        · simp [Receipt.plain, Outcome.plain, Report.receipt, hids _ h hk, hsession]
        · simp only [bytes?, getElem?_insert]
          split <;> rfl

/-- What is asked about one buffer. -/
private theorem reports_flag (hs : l.Serves n) {b : Name} (hb : b.session = s)
    (hw : w = .contains b ∨ ∃ wait, w = .lists wait s b) :
    Option.Rel (Tells s) (l.fulfil? supply n w)
      ((l.share n s).serve? supply l.limits w) := by
  obtain rfl | ⟨wait, rfl⟩ := hw
  · simp only [Share.serve?, getElem?_buffers_share]
    cases hk : (n.handles s)[b.nth]? with
    | none =>
      rw [fulfil?_of_request?_eq_none (by simp [Notebook.request?, Notebook.handle?, hb, hk])]
      exact .none
    | some h =>
      have hreq : n.request? l.sessions (.contains b) = some (.inspect 0 (.contains h.key)) := by
        simp [Notebook.request?, Notebook.handle?, hb, hk]
      rw [fulfil?_of_ask? hreq rfl rfl]
      refine .some ⟨fun ids _ ↦ ?_, rfl⟩
      simp [Receipt.plain, Outcome.plain, Report.receipt, Ledger.inspect, contains_eq_isSome_bytes?]
  · obtain ⟨hr, htenure⟩ | ⟨r, y, hr, hregistry, htenure⟩ := hs.registry_cases s
    · rw [fulfil?_of_request?_eq_none (by simp [Notebook.request?, hr])]
      simp only [Share.serve?, htenure]
      exact .none
    · simp only [Share.serve?, htenure, getElem?_buffers_share, Option.bind_eq_bind,
        Option.bind_some]
      cases hk : (n.handles s)[b.nth]? with
      | none =>
        rw [fulfil?_of_request?_eq_none (by simp [Notebook.request?, hr, Notebook.handle?, hb, hk])]
        exact .none
      | some h =>
        have hreq : n.request? l.sessions (.lists wait s b) =
            some (.roster r (if wait then .contains h.key else .tryContains h.key)) := by
          simp [Notebook.request?, hr, Notebook.handle?, hb, hk]
        have hlt : r < l.registries.size := (Array.getElem?_eq_some_iff.mp hregistry).1
        have hask : l.ask? supply
            (.roster r (if wait then .contains h.key else .tryContains h.key)) =
              some (.flag (l.owner? h.key = some r), l) := by
          cases wait <;> simp [ask?, hlt, read?]
        rw [fulfil?_of_ask? hreq hask rfl]
        refine .some ⟨fun ids _ ↦ ?_, rfl⟩
        have hsession := (hs.handle (List.mem_of_getElem? hk)).1
        simp [Receipt.plain, Outcome.plain, Report.receipt, hs.owner?_eq_some_iff hregistry,
          hsession, contains_eq_isSome_bytes?]

/-- What is asked about all buffers of a session. -/
private theorem reports_all (hs : l.Serves n)
    (hw : w = .keysOf s ∨ w = .listed s ∨ w = .count s) :
    Option.Rel (Tells s) (l.fulfil? supply n w)
      ((l.share n s).serve? supply l.limits w) := by
  obtain rfl | hw := hw
  · have hreq : n.request? l.sessions (.keysOf s) = some (.inspect 0 (.keysOf s)) := rfl
    rw [fulfil?_of_ask? hreq rfl rfl]
    refine .some ⟨fun ids hids ↦ ?_, rfl⟩
    simp [Receipt.plain, Outcome.plain, Report.receipt, Ledger.inspect, hs.keys_eq_present s hids]
  · obtain ⟨hr, htenure⟩ | ⟨r, y, hr, hregistry, htenure⟩ := hs.registry_cases s
    · have hnone : n.request? l.sessions w = none := by
        obtain rfl | rfl := hw <;> simp [Notebook.request?, hr]
      rw [fulfil?_of_request?_eq_none hnone]
      obtain rfl | rfl := hw <;> simp only [Share.serve?, htenure] <;> exact .none
    · have hlt : r < l.registries.size := (Array.getElem?_eq_some_iff.mp hregistry).1
      obtain rfl | rfl := hw
      · have hreq : n.request? l.sessions (.listed s) = some (.roster r .keys) := by
          simp [Notebook.request?, hr]
        have hask : l.ask? supply (.roster r .keys) = some (.keys (l.owned r), l) := by
          simp [ask?, hlt, read?]
        simp only [Share.serve?, htenure]
        rw [fulfil?_of_ask? hreq hask rfl]
        refine .some ⟨fun ids hids ↦ ?_, rfl⟩
        simp [Receipt.plain, Outcome.plain, Report.receipt, hs.owned_eq hregistry,
          hs.keys_eq_present s hids]
      · have hreq : n.request? l.sessions (.count s) = some (.roster r .size) := by
          simp [Notebook.request?, hr]
        have hask : l.ask? supply (.roster r .size) = some (.number (l.owned r).length, l) := by
          simp [ask?, hlt, read?]
        simp only [Share.serve?, htenure]
        rw [fulfil?_of_ask? hreq hask rfl]
        refine .some ⟨fun ids _ ↦ ?_, rfl⟩
        simp [Receipt.plain, Outcome.plain, Report.receipt, hs.length_owned hregistry]

/-- What a session has settles whether a wish of it can be fulfilled, what is told then, and what
the session has after it. -/
theorem reports (hs : l.Serves n) (supply : Supply) (hw : w.isOf s = true) :
    Option.Rel (Tells s) (l.fulfil? supply n w)
      ((l.share n s).serve? supply l.limits w) := by
  obtain ⟨hin, hall⟩ : s ∈ w.sessions ∧ ∀ t ∈ w.sessions, t = s := by
    simpa [Wish.isOf, Wish.spares] using hw
  have hone {t : SessionId} (ht : t ∈ w.sessions) : t = s := hall t ht
  cases w with
  | attach a =>
    obtain rfl := hone (t := a.session) (by simp [Wish.sessions])
    exact reports_attach a
  | allocate t user kernel =>
    obtain rfl := hone (t := t) (by simp [Wish.sessions])
    exact hs.reports_allocate user kernel
  | free t b =>
    obtain rfl := hone (t := t) (by simp [Wish.sessions])
    exact hs.reports_free (hone (by simp [Wish.sessions]))
  | teardown t =>
    obtain rfl := hone (t := t) (by simp [Wish.sessions])
    exact hs.reports_teardown
  | endSession t =>
    obtain rfl := hone (t := t) (by simp [Wish.sessions])
    exact hs.reports_endSession
  | lookup b mode edits => exact hs.reports_open (hone (by simp [Wish.sessions])) (.inl rfl)
  | access b mode edits => exact hs.reports_open (hone (by simp [Wish.sessions])) (.inr rfl)
  | contains b => exact hs.reports_flag (hone (by simp [Wish.sessions])) (.inl rfl)
  | keysOf t =>
    obtain rfl := hone (t := t) (by simp [Wish.sessions])
    exact hs.reports_all (.inl rfl)
  | lists wait t b =>
    obtain rfl := hone (t := t) (by simp [Wish.sessions])
    exact hs.reports_flag (hone (by simp [Wish.sessions])) (.inr ⟨wait, rfl⟩)
  | listed t =>
    obtain rfl := hone (t := t) (by simp [Wish.sessions])
    exact hs.reports_all (.inr (.inl rfl))
  | count t =>
    obtain rfl := hone (t := t) (by simp [Wish.sessions])
    exact hs.reports_all (.inr (.inr rfl))
  | size | draw => cases hin

end Serves

end Ledger

end SessionBuffers
