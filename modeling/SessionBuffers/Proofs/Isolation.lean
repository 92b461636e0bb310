import SessionBuffers.Proofs.Share

/-!
# Sessions do not interfere

Take away from what clients want everything that is the matter of other sessions than one. That
session's client is told the same, but for the ids of its buffers, which come in the same order
(`Service.sessions_do_not_interfere`). The two runs are compared wish by wish: the session's share
of the table is the same in both, and in the shorter run no more numbers have been drawn
(`Ledger.Agrees`).
-/

namespace SessionBuffers

/-! ### What a session's client is told -/

namespace Notebook

/-- The notebook after all answers. -/
def noteAll (n : Notebook) : List Wish → List Receipt → Notebook
  | w :: ws, receipt :: receipts => (n.note w receipt.outcome).noteAll ws receipts
  | _, _ => n

variable {n : Notebook} {s : SessionId} {ids : Nat → BufferId}

/-- Positions keep their numbers when more is noted. -/
theorem numbers_of_note {w : Wish} {o : Outcome} (h : (n.note w o).Numbers s ids) :
    n.Numbers s ids := by
  intro k g hk
  refine h k g ?_
  unfold note
  split
  · exact hk
  · exact hk
  · rw [handles_given]
    split
    · next hs =>
      subst hs
      exact (List.getElem?_append_left (List.getElem?_eq_some_iff.mp hk).1).trans hk
    · exact hk
  · exact hk

theorem numbers_of_noteAll {ws : List Wish} {receipts : List Receipt}
    (h : (n.noteAll ws receipts).Numbers s ids) : n.Numbers s ids := by
  induction ws generalizing n receipts with
  | nil => exact h
  | cons w ws ih =>
    cases receipts with
    | nil => exact h
    | cons receipt receipts => exact numbers_of_note (ih h)

end Notebook

/-- What a session's client is told of what is the matter of this session only. -/
def resultsOf (s : SessionId) : List Wish → List Receipt → List Receipt
  | w :: ws, receipt :: receipts =>
    if w.isOf s then receipt :: resultsOf s ws receipts else resultsOf s ws receipts
  | _, _ => []

/-- The ids that a session has been given, in order. -/
def idsOf (s : SessionId) (ws : List Wish) (receipts : List Receipt) : List BufferId :=
  ((({} : Notebook).noteAll ws receipts).handles s).map fun h ↦ h.key.buffer

/-- Whether receipts are what reports say, for all ids that a notebook numbers a session's buffers
with. -/
def Says (s : SessionId) (n : Notebook) (receipts : List Receipt) (reports : List Report) : Prop :=
  ∀ ids, n.Numbers s ids → receipts.map (Receipt.plain id) = reports.map (Report.receipt s ids)

theorem Says.cons {s : SessionId} {n : Notebook} {receipt : Receipt} {receipts : List Receipt}
    {report : Report} {reports : List Report} (h : Says s n receipts reports)
    (hreceipt : ∀ ids, n.Numbers s ids → receipt.plain id = report.receipt s ids) :
    Says s n (receipt :: receipts) (report :: reports) := fun ids hids ↦ by
  rw [List.map_cons, List.map_cons, hreceipt ids hids, h ids hids]

/-- What spares other sessions and is no matter of one takes nothing of any. -/
theorem Wish.sessions_eq_nil {w : Wish} {s : SessionId} (hspares : w.spares s = true)
    (hother : w.isOf s = false) : w.sessions = [] := by
  cases hw : w.sessions with
  | nil => rfl
  | cons t ts =>
    have ht : t = s := by
      have := List.all_eq_true.mp hspares t (by simp [hw])
      simpa using this
    simp [isOf, hspares, hw, ht] at hother

/-- Whether a number has been drawn does not depend on which. -/
theorem Report.hasDrawn_receipt (report : Report) (s : SessionId) (ids others : Nat → BufferId) :
    (report.receipt s ids).outcome.hasDrawn = (report.receipt s others).outcome.hasDrawn := by
  cases report <;> rfl

namespace Ledger

variable {supply : Supply} {l l' m m' : Ledger} {n n' k k' : Notebook} {w : Wish} {ws : List Wish}
  {receipt other : Receipt} {receipts : List Receipt} {s : SessionId}

/-! ### Two runs -/

/-- How two ledgers, and what their clients have noted, are alike for one session. In the second
less may have happened. -/
structure Agrees (s : SessionId) (l : Ledger) (n : Notebook) (m : Ledger) (k : Notebook) :
    Prop where
  left : l.Serves n
  right : m.Serves k
  limits : m.limits = l.limits
  share : m.share k s = l.share n s
  nextId : m.nextId.number.toNat ≤ l.nextId.number.toNat

namespace Agrees

/-- What is not the matter of the session may happen on one side only. -/
theorem aside (ha : Agrees s l n m k) (hw : w.isOf s = false)
    (hf : l.fulfil? supply n w = some (receipt, l', n'))
    (hroom : l.nextId.number.toNat + receipt.outcome.hasDrawn.toNat < 2 ^ 64) :
    Agrees s l' n' m k := by
  have ht := ha.left.turns hf
  have hdrawn : receipt.outcome.hasDrawn = true → l.nextId.number.toNat + 1 < 2 ^ 64 :=
    fun h ↦ by simpa [h] using hroom
  have hnext := ht.nextId hdrawn
  have hle := ha.nextId
  exact ⟨ha.left.of_turns ht hdrawn, ha.right, ha.limits.trans ht.limits.symm,
    ha.share.trans (ha.left.share_kept ht hw).1.symm, by omega⟩

/-- What happens on both sides and draws a number on both or on neither. -/
theorem both (ha : Agrees s l n m k) (hf : l.fulfil? supply n w = some (receipt, l', n'))
    (hg : m.fulfil? supply k w = some (other, m', k'))
    (hdrawn : other.outcome.hasDrawn = receipt.outcome.hasDrawn)
    (hshare : m'.share k' s = l'.share n' s)
    (hroom : l.nextId.number.toNat + receipt.outcome.hasDrawn.toNat < 2 ^ 64) :
    Agrees s l' n' m' k' := by
  have ht := ha.left.turns hf
  have hu := ha.right.turns hg
  have hle := ha.nextId
  have hleft : receipt.outcome.hasDrawn = true → l.nextId.number.toNat + 1 < 2 ^ 64 :=
    fun h ↦ by simpa [h] using hroom
  have hright : other.outcome.hasDrawn = true → m.nextId.number.toNat + 1 < 2 ^ 64 :=
    fun h ↦ by
      have := hleft (hdrawn ▸ h)
      omega
  have hnext := ht.nextId hleft
  have hnext' := hu.nextId hright
  rw [hdrawn] at hnext'
  exact ⟨ha.left.of_turns ht hleft, ha.right.of_turns hu hright,
    hu.limits.trans (ha.limits.trans ht.limits.symm), hshare, by omega⟩

/-- A wish of the session is fulfilled alike on both sides. -/
theorem own (ha : Agrees s l n m k) (hw : w.isOf s = true)
    (hf : l.fulfil? supply n w = some (receipt, l', n')) :
    ∃ other m' k', ∃ report : Report, m.fulfil? supply k w = some (other, m', k') ∧
      other.outcome.hasDrawn = receipt.outcome.hasDrawn ∧ m'.share k' s = l'.share n' s ∧
      (∀ ids, n'.Numbers s ids → receipt.plain id = report.receipt s ids) ∧
      ∀ ids, k'.Numbers s ids → other.plain id = report.receipt s ids := by
  have hleft := ha.left.reports supply hw
  have hright := ha.right.reports supply hw
  rw [ha.limits, ha.share] at hright
  rw [hf] at hleft
  generalize (l.share n s).serve? supply l.limits w = served at hleft hright
  cases hleft with
  | @some _ y htells =>
    generalize hg : m.fulfil? supply k w = fulfilled at hright
    cases hright with
    | @some x _ htells' =>
      obtain ⟨other, m', k'⟩ := x
      refine ⟨other, m', k', y.1, rfl, ?_, htells'.share.trans htells.share.symm, htells.receipt,
        htells'.receipt⟩
      have hreceipt := congrArg (·.outcome.hasDrawn) (htells.receipt _ (n'.numbers_ids s))
      have hother := congrArg (·.outcome.hasDrawn) (htells'.receipt _ (k'.numbers_ids s))
      simp only [Receipt.plain, Outcome.hasDrawn_plain] at hreceipt hother
      rw [hreceipt, hother, y.1.hasDrawn_receipt]

end Agrees

/-- What takes nothing of any session can always be had, and draws a number always or never. -/
private theorem fulfil?_neutral (hw : w.sessions = []) (m : Ledger) (k : Notebook)
    (hf : l.fulfil? supply n w = some (receipt, l', n')) :
    ∃ other m' k', m.fulfil? supply k w = some (other, m', k') ∧
      other.outcome.hasDrawn = receipt.outcome.hasDrawn := by
  cases w with
  | size =>
    cases hf
    exact ⟨_, _, _, rfl, rfl⟩
  | draw =>
    cases hf
    exact ⟨_, _, _, rfl, rfl⟩
  | _ => cases hw

/-- When what is the matter of other sessions is taken away, a session's client is told the same. -/
theorem Agrees.fulfilAll? (ha : Agrees s l n m k)
    (hall : l.fulfilAll? supply n ws = some receipts)
    (hroom : l.nextId.number.toNat + receipts.countP (·.outcome.hasDrawn) < 2 ^ 64) :
    ∃ others, m.fulfilAll? supply k (ws.filter (Wish.spares s)) = some others ∧
      (∃ l' m', Agrees s l' (n.noteAll ws receipts) m'
        (k.noteAll (ws.filter (Wish.spares s)) others)) ∧
      ∃ reports, Says s (n.noteAll ws receipts) (resultsOf s ws receipts) reports ∧
        Says s (k.noteAll (ws.filter (Wish.spares s)) others)
          (resultsOf s (ws.filter (Wish.spares s)) others) reports := by
  induction ws generalizing l n m k receipts with
  | nil =>
    cases hall
    exact ⟨[], rfl, ⟨l, m, ha⟩, [], fun _ _ ↦ rfl, fun _ _ ↦ rfl⟩
  | cons w ws ih =>
    obtain ⟨receipt, l', n', rest, hf, hrest, rfl⟩ := fulfilAll?_cons.mp hall
    obtain ⟨-, -, -, rfl⟩ := fulfil?_eq_some.mp hf
    have hcount : (receipt :: rest).countP (·.outcome.hasDrawn) =
        rest.countP (·.outcome.hasDrawn) + receipt.outcome.hasDrawn.toNat := by
      rw [List.countP_cons]
      cases receipt.outcome.hasDrawn <;> rfl
    have hnext := (ha.left.turns hf).nextId fun h ↦ by
      rw [hcount, h, Bool.toNat_true] at hroom
      omega
    have hroom' : l.nextId.number.toNat + receipt.outcome.hasDrawn.toNat < 2 ^ 64 := by omega
    have hroom'' : l'.nextId.number.toNat + rest.countP (·.outcome.hasDrawn) < 2 ^ 64 := by omega
    cases hspares : w.spares s with
    | false =>
      have hother : w.isOf s = false := by simp [Wish.isOf, hspares]
      obtain ⟨others, hothers, hagrees, reports, htold⟩ :=
        ih (ha.aside hother hf hroom') hrest hroom''
      rw [List.filter_cons_of_neg (by simp [hspares])]
      refine ⟨others, hothers, hagrees, reports, ?_⟩
      rwa [resultsOf, if_neg (by simp [hother])]
    | true =>
      rw [List.filter_cons_of_pos hspares]
      cases hown : w.isOf s with
      | true =>
        obtain ⟨other, m', k', report, hg, hdrawn, hshare, hreceipt, hreceipt'⟩ := ha.own hown hf
        obtain ⟨-, -, -, rfl⟩ := fulfil?_eq_some.mp hg
        obtain ⟨others, hothers, hagrees, reports, htold, htold'⟩ :=
          ih (ha.both hf hg hdrawn hshare hroom') hrest hroom''
        refine ⟨other :: others, fulfilAll?_cons.mpr ⟨_, _, _, _, hg, hothers, rfl⟩, hagrees,
          report :: reports, ?_, ?_⟩
        · rw [resultsOf, if_pos hown]
          exact htold.cons fun ids hids ↦ hreceipt ids (Notebook.numbers_of_noteAll hids)
        · rw [resultsOf, if_pos hown]
          exact htold'.cons fun ids hids ↦ hreceipt' ids (Notebook.numbers_of_noteAll hids)
      | false =>
        obtain ⟨other, m', k', hg, hdrawn⟩ :=
          fulfil?_neutral (Wish.sessions_eq_nil hspares hown) m k hf
        obtain ⟨-, -, -, rfl⟩ := fulfil?_eq_some.mp hg
        have hshare := (ha.right.share_kept (ha.right.turns hg) hown).1.trans
          (ha.share.trans (ha.left.share_kept (ha.left.turns hf) hown).1.symm)
        obtain ⟨others, hothers, hagrees, reports, htold, htold'⟩ :=
          ih (ha.both hf hg hdrawn hshare hroom') hrest hroom''
        refine ⟨other :: others, fulfilAll?_cons.mpr ⟨_, _, _, _, hg, hothers, rfl⟩, hagrees,
          reports, ?_, ?_⟩
        · rwa [resultsOf, if_neg (by simp [hown])]
        · rwa [resultsOf, if_neg (by simp [hown])]

end Ledger

/-! ### Other ids -/

/-- Of two lists of one length one is the other renamed, when no id comes twice in that. -/
private theorem exists_renaming {ids others : List BufferId} (hids : ids.Nodup)
    (hlength : others.length = ids.length) : ∃ ρ : BufferId → BufferId, others = ids.map ρ := by
  refine ⟨fun b ↦ others.getD (ids.idxOf b) default, ?_⟩
  apply List.ext_getElem
  · rw [List.length_map, hlength]
  · intro i hi hi'
    have hlt : i < ids.length := by omega
    rw [List.getElem_map, hids.idxOf_getElem i hlt, List.getD_eq_getElem?_getD,
      List.getElem?_eq_getElem hi, Option.getD_some]

/-- When the ids that one notebook has noted for a session are those of another renamed, so are the
numbers of positions. -/
private theorem Notebook.numbers_comp {n k : Notebook} {s : SessionId} {ρ : BufferId → BufferId}
    (h : (k.handles s).map (fun h ↦ h.key.buffer) =
      ((n.handles s).map fun h ↦ h.key.buffer).map ρ) : k.Numbers s (ρ ∘ n.ids s) := by
  intro i g hg
  have hi := congrArg (·[i]?) h
  simp only [List.getElem?_map, hg, Option.map_some] at hi
  obtain ⟨b, hb, hρ⟩ := Option.map_eq_some_iff.mp hi.symm
  rw [Function.comp_apply, ids, hb]
  exact hρ

namespace Ledger

variable {l m : Ledger} {n k : Notebook} {s : SessionId}

/-- The ids that a session has been given ascend. -/
theorem Serves.ids_ascending (hs : l.Serves n) (s : SessionId) :
    ((n.handles s).map fun h ↦ h.key.buffer).Pairwise (·.number < ·.number) :=
  List.pairwise_map.mpr (hs.ascending s)

/-- A session has been given as many ids on both sides, so they are the same but for a renaming that
keeps their order. -/
theorem Agrees.exists_renaming (ha : Agrees s l n m k) : ∃ ρ : BufferId → BufferId,
    (k.handles s).map (fun h ↦ h.key.buffer) =
      ((n.handles s).map fun h ↦ h.key.buffer).map ρ := by
  have hlength := congrArg (·.buffers.length) ha.share
  simp only [Ledger.share, List.length_map] at hlength
  refine SessionBuffers.exists_renaming ((ha.left.ids_ascending s).imp fun hlt he ↦ ?_) (by simpa)
  exact UInt64.lt_irrefl _ (he ▸ hlt)

end Ledger

namespace Service

open Ledger

/-- Sessions do not interfere. Take any run of clients on one table, with one registry for each
session, in which every call comes to its outcome, and its guard is dropped, before the next, and
the number that comes next does not wrap; counters may be changed by hand at any time. When
everything that is the matter of other sessions than one is taken away, what is left can be done, in
one way. The session is given as many ids, which ascend in both runs, and what its client is told is
the same once the ids are renamed. -/
theorem sessions_do_not_interfere (supply : Supply) (limits : Limits) (start : BufferId)
    (s : SessionId) {ws : List Wish} {receipts : List Receipt}
    (hall : Fulfils supply (startingAt limits start) {} ws receipts)
    (hroom : start.number.toNat + receipts.countP (·.outcome.hasDrawn) < 2 ^ 64) :
    ∃ others, (∀ receipts', Fulfils supply (startingAt limits start) {}
        (ws.filter (Wish.spares s)) receipts' ↔ receipts' = others) ∧
      (idsOf s ws receipts).Pairwise (·.number < ·.number) ∧
      (idsOf s (ws.filter (Wish.spares s)) others).Pairwise (·.number < ·.number) ∧
      ∃ ρ : BufferId → BufferId,
        idsOf s (ws.filter (Wish.spares s)) others = (idsOf s ws receipts).map ρ ∧
        (resultsOf s (ws.filter (Wish.spares s)) others).map (Receipt.plain id) =
          (resultsOf s ws receipts).map (Receipt.plain ρ) := by
  have hdescribes := describes_startingAt limits start
  have hfree (i : CallRef) : (startingAt limits start).guard? i = none := rfl
  have hserves := serves_initial limits start
  have hagrees : Agrees s (Ledger.initial limits start) {} (Ledger.initial limits start) {} :=
    ⟨hserves, hserves, rfl, rfl, Nat.le_refl _⟩
  obtain ⟨others, hothers, ⟨l', m', hafter⟩, reports, htold, htold'⟩ :=
    hagrees.fulfilAll? ((hdescribes.fulfils_iff hfree).mp hall) hroom
  refine ⟨others, fun receipts' ↦ ?_, hafter.left.ids_ascending s, hafter.right.ids_ascending s, ?_⟩
  · rw [hdescribes.fulfils_iff hfree, hothers, Option.some.injEq, eq_comm]
  · obtain ⟨ρ, hρ⟩ := hafter.exists_renaming
    refine ⟨ρ, hρ, ?_⟩
    calc (resultsOf s (ws.filter (Wish.spares s)) others).map (Receipt.plain id)
      _ = reports.map (Report.receipt s (ρ ∘ (({} : Notebook).noteAll ws receipts).ids s)) :=
        htold' _ (Notebook.numbers_comp hρ)
      _ = (reports.map (Report.receipt s ((({} : Notebook).noteAll ws receipts).ids s))).map
          (Receipt.plain ρ) := by
        rw [List.map_map]
        exact List.map_congr_left fun report _ ↦ (report.plain_receipt s _ ρ).symm
      _ = ((resultsOf s ws receipts).map (Receipt.plain id)).map (Receipt.plain ρ) := by
        rw [htold _ (Notebook.numbers_ids _ s)]
      _ = (resultsOf s ws receipts).map (Receipt.plain ρ) := by
        rw [List.map_map]
        exact List.map_congr_left fun receipt _ ↦ receipt.plain_plain ρ

/-- Two sessions take turns, and the one tries to free the other's buffer. -/
def takingTurns : List Wish :=
  [.attach ⟨⟨8⟩, .table 0⟩, .attach ⟨⟨7⟩, .session 0⟩, .allocate ⟨8⟩ 1 0, .allocate ⟨7⟩ 2 1,
    .free ⟨7⟩ ⟨⟨8⟩, 0⟩, .lookup ⟨⟨7⟩, 0⟩ .exclusive [(.user, .write 1 ⟨#[5]⟩)], .teardown ⟨8⟩,
    .keysOf ⟨7⟩, .endSession ⟨7⟩, .access ⟨⟨7⟩, 0⟩ .shared []]

/-- Without the other session, the buffer has another id, and all else is the same. -/
theorem same_without_other : ∃ others, Fulfils .addressable (startingAt {} ⟨0⟩) {}
    (takingTurns.filter (Wish.spares ⟨7⟩)) others ∧ ∃ ρ : BufferId → BufferId,
      idsOf ⟨7⟩ (takingTurns.filter (Wish.spares ⟨7⟩)) others = [ρ ⟨1⟩] ∧
      (resultsOf ⟨7⟩ (takingTurns.filter (Wish.spares ⟨7⟩)) others).map (Receipt.plain id) =
        [⟨.session 0, []⟩, ⟨.handle ⟨⟨⟨7⟩, ρ ⟨1⟩⟩, 0⟩, []⟩,
          ⟨.guard ⟨⟨⟨⟨7⟩, ρ ⟨1⟩⟩, 0⟩, .exclusive⟩, [⟨[0, 0], [0]⟩, ⟨[0, 5], [0]⟩]⟩,
          ⟨.keys [⟨⟨7⟩, ρ ⟨1⟩⟩], []⟩, ⟨.number 1, []⟩,
          ⟨.refused (.notFound ⟨⟨7⟩, ρ ⟨1⟩⟩), []⟩] := by
  have hall : Fulfils .addressable (startingAt {} ⟨0⟩) {} takingTurns
      [⟨.registry 0, []⟩, ⟨.session 0, []⟩, ⟨.handle ⟨⟨⟨8⟩, ⟨0⟩⟩, 0⟩, []⟩,
        ⟨.handle ⟨⟨⟨7⟩, ⟨1⟩⟩, 1⟩, []⟩, ⟨.refused (.notFound ⟨⟨7⟩, ⟨0⟩⟩), []⟩,
        ⟨.guard ⟨⟨⟨⟨7⟩, ⟨1⟩⟩, 1⟩, .exclusive⟩, [⟨[0, 0], [0]⟩, ⟨[0, 5], [0]⟩]⟩, ⟨.number 1, []⟩,
        ⟨.keys [⟨⟨7⟩, ⟨1⟩⟩], []⟩, ⟨.number 1, []⟩, ⟨.refused (.notFound ⟨⟨7⟩, ⟨1⟩⟩), []⟩] :=
    ((describes_startingAt {} ⟨0⟩).fulfils_iff fun _ ↦ rfl).mpr (by decide +kernel)
  obtain ⟨others, hothers, -, -, ρ, hids, hresults⟩ :=
    sessions_do_not_interfere .addressable {} ⟨0⟩ ⟨7⟩ hall (by decide)
  exact ⟨others, (hothers others).mpr rfl, ρ, hids, hresults⟩

end Service

end SessionBuffers
