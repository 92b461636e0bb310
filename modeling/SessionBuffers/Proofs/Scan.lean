import SessionBuffers.Proofs.Aftermath
import SessionBuffers.Proofs.Matching

/-!
# Scanning sessions and scanning everything

The keys of one session lie together in an index, between the least and the greatest key that the
session can have. So a scan of that range finds what a scan of the whole index would find, and the
scans of all sessions one after another go through the index in its own order.
-/

namespace SessionBuffers

/-! ### All sessions -/

namespace SessionId

/-- Every session that there can be, in ascending order. -/
def all : List SessionId := (List.range UInt32.size).map fun n ↦ ⟨.ofNat n⟩

theorem mem_all (s : SessionId) : s ∈ all := by
  apply List.mem_map.mpr
  exact ⟨s.number.toNat, List.mem_range.mpr s.number.toNat_lt, by rw [UInt32.ofNat_toNat]⟩

theorem ordered_all : all.Pairwise fun a b ↦ compare a b = .lt := by
  rw [all, List.pairwise_map]
  apply List.pairwise_lt_range.imp_of_mem
  intro m n hm hn hlt
  rw [List.mem_range] at hm hn
  change compare (UInt32.ofNat m) (UInt32.ofNat n) = .lt
  rw [Std.compare_eq_lt, UInt32.lt_iff_toNat_lt, UInt32.toNat_ofNat_of_lt' hm,
    UInt32.toNat_ofNat_of_lt' hn]
  exact hlt

end SessionId

/-- A key of a lower session is lower. -/
theorem Key.lt_of_session {k l : Key} (h : compare k.session l.session = .lt) :
    compare k l = .lt := by
  rw [compare_eq, h]
  rfl

/-! ### Scans -/

namespace Index

variable {index : Index} {s : SessionId} {key : Key}

theorem mem_ofSession :
    key ∈ index.ofSession s ↔ index.contains key = true ∧ key.session = s := by
  rw [ofSession_eq, List.mem_filter, Std.ExtTreeMap.mem_keys, ← Std.ExtTreeMap.contains_iff_mem,
    decide_eq_true_iff]

theorem ordered_ofSession (index : Index) (s : SessionId) :
    (index.ofSession s).Pairwise fun a b ↦ compare a b = .lt := by
  rw [ofSession_eq]
  exact Std.ExtTreeMap.ordered_keys.filter _

/-- The scans of all sessions one after another list the index. -/
theorem flatMap_ofSession (index : Index) : SessionId.all.flatMap index.ofSession = index.keys := by
  apply Key.eq_of_ascending _ Std.ExtTreeMap.ordered_keys
  · intro key
    rw [Std.ExtTreeMap.mem_keys, ← Std.ExtTreeMap.contains_iff_mem, List.mem_flatMap]
    constructor
    · rintro ⟨s, -, hkey⟩
      exact (mem_ofSession.mp hkey).1
    · intro hin
      exact ⟨key.session, key.session.mem_all, mem_ofSession.mpr ⟨hin, rfl⟩⟩
  · rw [List.pairwise_flatMap]
    constructor
    · exact fun s _ ↦ ordered_ofSession index s
    · apply SessionId.ordered_all.imp
      intro s u hlt k hk l hl
      rw [← (mem_ofSession.mp hk).2, ← (mem_ofSession.mp hl).2] at hlt
      exact Key.lt_of_session hlt

theorem sum_length_ofSession (index : Index) :
    (SessionId.all.map fun s ↦ (index.ofSession s).length).sum = index.size := by
  rw [← List.length_flatMap, flatMap_ofSession, Std.ExtTreeMap.length_keys]

end Index

namespace Service

variable {supply : Supply} {s : Service} {t : TableRef} {holders : List CallRef}

/-! ### Asking a table -/

/-- A question to a table that nobody has for himself is answered from its index, and leaves all as
it was. -/
theorem completes_inspect (supply : Supply) (question : Question)
    (hlt : s.store.lock? (.table t) = some (.shared holders)) :
    ∃ s', s.Completes supply (.inspect t question) (question.answer (s.store.indexOf t)) s' ∧
      s.store.Becomes s.calls.size t 0 (s.store.untouched t 0) s'.store := by
  obtain ⟨ht, hlt⟩ := Store.has_of_lock? hlt
  have h := Job.Reaches.rest supply s.calls.size t 0 (.inspecting ⟨t, question⟩ .lockTable) s.store
  obtain ⟨_, h⟩ := h.share rfl ht hlt
  have h := h.readIndex rfl ht
  obtain ⟨_, h⟩ := h.releaseAs rfl (h.2.has_table.mpr ht)
  rw [Aftermath.withLock_withLock_of_eq (by simp [hlt, Lock.release])] at h
  exact completes_of_reaches rfl (Job.ofRequest?_eq_some.mpr (.inspect ht)) h rfl

/-- A scan of the keys of a session finds those between the least and the greatest key that the
session can have, and these are just the keys of the session. So in every index it lists the keys of
the session, each once and in ascending order; the scans of all sessions one after another list the
index in its order, and are together as long as it is large. This is also what a table answers
whenever nobody has it for himself. -/
theorem range_scan_is_full_scan :
    (∀ (s : SessionId) (key : Key), (compare (Key.first s) key).isLE = true ∧
      (compare key (Key.last s)).isLE = true ↔ key.session = s) ∧
    (∀ s, s ∈ SessionId.all) ∧ (SessionId.all.Pairwise fun a b ↦ compare a b = .lt) ∧
    (∀ (index : Index) (s : SessionId),
      index.ofSession s = (index.keys.filter fun key ↦ key.session = s) ∧
      ((index.ofSession s).Pairwise fun a b ↦ compare a b = .lt) ∧
      ∀ key, key ∈ index.ofSession s ↔ index.contains key = true ∧ key.session = s) ∧
    (∀ index : Index, SessionId.all.flatMap index.ofSession = index.keys ∧
      (SessionId.all.map fun s ↦ (index.ofSession s).length).sum = index.size) ∧
    ∀ supply (s : Service) (t : TableRef) (holders : List CallRef),
      s.store.lock? (.table t) = some (.shared holders) →
      (∀ session, ∃ s', s.Completes supply (.inspect t (.keysOf session))
        (.keys ((s.store.indexOf t).keys.filter fun key ↦ key.session = session)) s') ∧
      ∃ s', s.Completes supply (.inspect t .size) (.number (SessionId.all.map fun session ↦
        ((s.store.indexOf t).ofSession session).length).sum) s' := by
  refine ⟨fun s key ↦ ?_, SessionId.mem_all, SessionId.ordered_all,
    fun index s ↦ ⟨index.ofSession_eq s, index.ordered_ofSession s, fun _ ↦ Index.mem_ofSession⟩,
    fun index ↦ ⟨index.flatMap_ofSession, index.sum_length_ofSession⟩,
    fun supply s t holders hlt ↦ ⟨fun session ↦ ?_, ?_⟩⟩
  · have hswap : compare (Key.first s) key = (compare key (.first s)).swap :=
      Std.OrientedCmp.eq_swap
    rw [← key.between_iff, hswap]
    cases compare key (.first s) <;> cases compare key (.last s) <;> simp
  · obtain ⟨s', hc, -⟩ := completes_inspect supply (.keysOf session) hlt
    rw [← Index.ofSession_eq]
    exact ⟨s', hc⟩
  · obtain ⟨s', hc, -⟩ := completes_inspect supply .size hlt
    rw [Index.sum_length_ofSession]
    exact ⟨s', hc⟩

/-- The first session has a buffer with the first number, and the last session has one with the last
number. -/
def extremeKeys : History :=
  History.allocated ⟨0⟩ 4 4 ++ History.call (.attach ⟨⟨4294967295⟩, .alone 1⟩) 2 1 ++
    (.addressable, .setNextId 0 ⟨18446744073709551615⟩) ::
    History.call (.allocate 0 1 4 4) 3 14

/-- Both buffers are found by scans of their sessions. -/
theorem extreme_keys_found : ∃ s u v, (withTables [{}]).run? extremeKeys = some s ∧
    s.store.lock? (.table 0) = some (.shared []) ∧
    s.Completes .addressable (.inspect 0 (.keysOf ⟨0⟩)) (.keys [⟨⟨0⟩, ⟨0⟩⟩]) u ∧
    s.Completes .addressable (.inspect 0 (.keysOf ⟨4294967295⟩))
      (.keys [⟨⟨4294967295⟩, ⟨18446744073709551615⟩⟩]) v := by
  have hrun : ((withTables [{}]).run? extremeKeys).map (fun s ↦
      (s.store.lock? (.table 0), (s.store.indexOf 0).keys)) =
      some (some (.shared []), [⟨⟨0⟩, ⟨0⟩⟩, ⟨⟨4294967295⟩, ⟨18446744073709551615⟩⟩]) := by
    decide +kernel
  obtain ⟨s, hs, hrun⟩ := Option.map_eq_some_iff.mp hrun
  rw [Prod.mk.injEq] at hrun
  obtain ⟨hlt, hkeys⟩ := hrun
  obtain ⟨hscans, -⟩ := range_scan_is_full_scan.2.2.2.2.2 .addressable s 0 [] hlt
  rw [hkeys] at hscans
  obtain ⟨u, hu⟩ := hscans ⟨0⟩
  obtain ⟨v, hv⟩ := hscans ⟨4294967295⟩
  exact ⟨s, u, v, hs, hlt, hu, hv⟩

end Service

end SessionBuffers
