import Mathlib.Data.List.Sort
import Tidemark.Checkpoint.Archive

/-! Retention. The checkpoints of a partition that an archive in memory lists ascend, and purging
leaves the newest of them. So a checkpoint that was saved stays while fewer newer ones are there
than are kept. -/

namespace Tidemark

/-- The place of an element of an ascending list, from the end. -/
theorem mem_take_iff_of_ascending {l : List UInt64} (h : l.Pairwise (· < ·)) {id : UInt64}
    (hid : id ∈ l) (keep : ℕ) :
    id ∈ l.take (l.length - keep) ↔ keep ≤ (l.filter (id < ·)).length := by
  obtain ⟨fore, rest, rfl⟩ := List.append_of_mem hid
  obtain ⟨_, hrest, hfore⟩ := List.pairwise_append.1 h
  have hnew := (List.pairwise_cons.1 hrest).1
  have hnot : id ∉ fore := fun hmem => UInt64.lt_irrefl id (hfore id hmem id (by simp))
  have hfilter : (fore ++ id :: rest).filter (id < ·) = rest := by
    have hfore' : fore.filter (id < ·) = [] := by
      rw [List.filter_eq_nil_iff]
      intro x hx
      simpa using UInt64.le_of_lt (hfore x hx id (by simp))
    have hrest' : rest.filter (id < ·) = rest := by
      rw [List.filter_eq_self]
      exact fun x hx => by simpa using hnew x hx
    rw [List.filter_append, hfore', List.filter_cons, hrest']
    simp
  rw [hfilter, List.take_append, List.mem_append]
  have hlen : (fore ++ id :: rest).length = fore.length + 1 + rest.length := by
    simp only [List.length_append, List.length_cons]
    omega
  rw [hlen]
  constructor
  · rintro (hmem | hmem)
    · exact absurd (List.mem_of_mem_take hmem) hnot
    · by_contra hlt
      rw [show fore.length + 1 + rest.length - keep - fore.length = 0 by omega] at hmem
      cases hmem
  · intro hle
    right
    obtain ⟨n, hn⟩ := Nat.exists_eq_add_one_of_ne_zero
      (n := fore.length + 1 + rest.length - keep - fore.length) (by omega)
    rw [hn]
    simp

/-- The last of an ascending list is its greatest element. -/
theorem getLast?_eq_some_of_ascending {l : List UInt64} (h : l.Pairwise (· < ·)) {id : UInt64}
    (hid : id ∈ l) : l.getLast? = some id ↔ ∀ j ∈ l, j ≤ id := by
  constructor
  · intro hlast j hj
    obtain ⟨fore, rfl⟩ := List.getLast?_eq_some_iff.1 hlast
    rcases List.mem_append.1 hj with hj | hj
    · exact UInt64.le_of_lt ((List.pairwise_append.1 h).2.2 j hj id (by simp))
    · rw [List.mem_singleton.1 hj]
      exact UInt64.le_refl id
  · intro hmax
    obtain ⟨fore, rest, rfl⟩ := List.append_of_mem hid
    have hnew := (List.pairwise_cons.1 (List.pairwise_append.1 h).2.1).1
    have hrest : rest = [] := by
      refine List.eq_nil_iff_forall_not_mem.2 fun j hj => ?_
      exact UInt64.not_le.2 (hnew j hj) (hmax j (by simp [hj]))
    rw [hrest]
    simp

namespace MemoryArchive

variable {a : MemoryArchive} {p : UInt32}

theorem mem_list {id : UInt64} : id ∈ a.list p ↔ (a.manifests[(⟨id, p⟩ : Share)]?).isSome := by
  rw [list, List.mem_map, ← Std.ExtTreeMap.mem_iff_isSome_getElem?]
  constructor
  · rintro ⟨⟨id, q⟩, hs, rfl⟩
    obtain ⟨hkey, hq⟩ := List.mem_filter.1 hs
    obtain rfl : q = p := by simpa using hq
    exact Std.ExtTreeMap.mem_keys.1 hkey
  · intro h
    exact ⟨⟨id, p⟩, List.mem_filter.2 ⟨Std.ExtTreeMap.mem_keys.2 h, by simp⟩, rfl⟩

theorem pairwise_list (a : MemoryArchive) (p : UInt32) : (a.list p).Pairwise (· < ·) := by
  rw [list, List.pairwise_map]
  refine (Std.ExtTreeMap.ordered_keys.filter _).imp_of_mem ?_
  rintro ⟨i, q⟩ ⟨j, r⟩ hi hj hlt
  obtain rfl : q = p := by simpa using (List.mem_filter.1 hi).2
  obtain rfl : r = q := by simpa using (List.mem_filter.1 hj).2
  have hid : (compare i j).then (compare r r) = .lt := hlt
  have hself : compare r r = .eq := Std.ReflCmp.compare_self
  rw [hself, Ordering.then_eq] at hid
  exact compareOfLessAndEq_eq_lt.1 hid

/-- The checkpoints of a partition that are not among the last `keep`. -/
def stale (a : MemoryArchive) (p : UInt32) (keep : ℕ) : List UInt64 :=
  (a.list p).take ((a.list p).length - keep)

theorem mem_stale {id : UInt64} (h : id ∈ a.list p) (keep : ℕ) :
    id ∈ a.stale p keep ↔ keep ≤ ((a.list p).filter (id < ·)).length :=
  mem_take_iff_of_ascending (a.pairwise_list p) h keep

/-- Different checkpoints of a partition, each with a manifest. -/
structure Holds (a : MemoryArchive) (p : UInt32) (ids : List UInt64) : Prop where
  nodup : ids.Nodup
  manifest : ∀ id ∈ ids, (a.manifests[(⟨id, p⟩ : Share)]?).isSome

theorem holds_stale (a : MemoryArchive) (p : UInt32) (keep : ℕ) : a.Holds p (a.stale p keep) where
  nodup := ((a.pairwise_list p).imp UInt64.ne_of_lt).sublist (List.take_sublist _ _)
  manifest _ hid := mem_list.1 (List.mem_of_mem_take hid)

theorem Holds.erase {id : UInt64} {ids : List UInt64} (h : a.Holds p (id :: ids)) :
    (a.erase ⟨id, p⟩).Holds p ids := by
  obtain ⟨hid, hnodup⟩ := List.nodup_cons.1 h.nodup
  refine ⟨hnodup, fun j hj => ?_⟩
  have hne : id ≠ j := fun he => hid (he ▸ hj)
  simpa [MemoryArchive.erase, Std.ExtTreeMap.getElem?_erase, hne] using h.manifest j (by simp [hj])

theorem getElem?_foldl_erase (ids : List UInt64) (a : MemoryArchive) (s : Share) :
    (ids.foldl (fun a id => a.erase ⟨id, p⟩) a).manifests[s]? =
        (if s.partition = p ∧ s.id ∈ ids then none else a.manifests[s]?) ∧
      (ids.foldl (fun a id => a.erase ⟨id, p⟩) a).states[s]? =
        (if s.partition = p ∧ s.id ∈ ids then none else a.states[s]?) := by
  induction ids generalizing a with
  | nil => simp
  | cons id ids ih =>
    obtain ⟨hmanifests, hstates⟩ := ih (a.erase ⟨id, p⟩)
    obtain ⟨i, q⟩ := s
    rw [List.foldl_cons, hmanifests, hstates]
    simp only [erase, Std.ExtTreeMap.getElem?_erase, Std.compare_eq_iff_eq, Share.mk.injEq,
      List.mem_cons]
    by_cases hq : q = p
    · by_cases hi : i = id
      · simp [hq, hi]
      · simp [hq, hi, Ne.symm hi]
    · simp [hq, Ne.symm hq]

theorem manifests_purge (a : MemoryArchive) (p : UInt32) (keep : ℕ) (s : Share) :
    (a.purge p keep).manifests[s]? =
      if s.partition = p ∧ s.id ∈ a.stale p keep then none else a.manifests[s]? :=
  (getElem?_foldl_erase _ a s).1

theorem states_purge (a : MemoryArchive) (p : UInt32) (keep : ℕ) (s : Share) :
    (a.purge p keep).states[s]? =
      if s.partition = p ∧ s.id ∈ a.stale p keep then none else a.states[s]? :=
  (getElem?_foldl_erase _ a s).2

/-- Purging keeps the newest checkpoints of the partition. -/
theorem list_purge (a : MemoryArchive) (p : UInt32) (keep : ℕ) :
    (a.purge p keep).list p = (a.list p).drop ((a.list p).length - keep) := by
  have hsplit := List.take_append_drop ((a.list p).length - keep) (a.list p)
  have hnodup : (a.list p).Nodup := (a.pairwise_list p).imp UInt64.ne_of_lt
  rw [← hsplit] at hnodup
  refine (pairwise_list _ p).eq_of_mem_iff ((a.pairwise_list p).sublist (List.drop_sublist _ _))
    fun id => ?_
  rw [mem_list, manifests_purge]
  constructor
  · intro h
    split at h
    · cases h
    · next hnot =>
      have hmem := mem_list.2 h
      rw [← hsplit, List.mem_append] at hmem
      exact hmem.resolve_left fun htake => hnot ⟨rfl, htake⟩
  · intro h
    have hnot : id ∉ a.stale p keep := fun htake => (List.disjoint_of_nodup_append hnodup) htake h
    rw [if_neg fun hand => hnot hand.2]
    exact mem_list.1 (List.mem_of_mem_drop h)

/-- A checkpoint was saved, and older ones were removed. -/
def record (a : MemoryArchive) (n : Manifest) (state : Bytes) (keep : ℕ) : MemoryArchive :=
  ((a.saveState n.share state).saveManifest n).purge n.partition keep

section Record

variable (a) (n : Manifest) (state : Bytes)

theorem mem_list_save (id : UInt64) :
    id ∈ ((a.saveState n.share state).saveManifest n).list n.partition ↔
      id = n.id ∨ id ∈ a.list n.partition := by
  rw [mem_list, mem_list, saveManifest, Std.ExtTreeMap.getElem?_insert, saveState]
  by_cases hid : id = n.id
  · simp [hid, Manifest.share]
  · simp [hid, Ne.symm hid, Manifest.share]

/-- Saving a checkpoint brings no newer one. -/
theorem newer_list_save :
    (((a.saveState n.share state).saveManifest n).list n.partition).filter (n.id < ·) =
      (a.list n.partition).filter (n.id < ·) := by
  refine ((pairwise_list _ _).filter _).eq_of_mem_iff ((a.pairwise_list _).filter _) fun id => ?_
  rw [List.mem_filter, List.mem_filter, mem_list_save]
  by_cases hid : id = n.id
  · simp [hid]
  · simp [hid]

theorem mem_stale_save (keep : ℕ) :
    n.id ∈ ((a.saveState n.share state).saveManifest n).stale n.partition keep ↔
      keep ≤ ((a.list n.partition).filter (n.id < ·)).length := by
  rw [mem_stale ((a.mem_list_save n state n.id).2 (.inl rfl)), newer_list_save]

/-- A checkpoint that was saved is there unless `keep` newer ones are. -/
theorem manifests_record (keep : ℕ) : (a.record n state keep).manifests[n.share]? =
    if keep ≤ ((a.list n.partition).filter (n.id < ·)).length then none else some n := by
  rw [record, manifests_purge]
  refine if_congr ((and_iff_right rfl).trans (a.mem_stale_save n state keep)) rfl ?_
  simp [saveManifest]

theorem states_record (keep : ℕ) : (a.record n state keep).states[n.share]? =
    if keep ≤ ((a.list n.partition).filter (n.id < ·)).length then none else some state := by
  rw [record, states_purge]
  refine if_congr ((and_iff_right rfl).trans (a.mem_stale_save n state keep)) rfl ?_
  simp [saveManifest, saveState]

/-- It is the newest unless a newer one was there. -/
theorem getLast?_list_record {keep : ℕ} (hkeep : 0 < keep) :
    ((a.record n state keep).list n.partition).getLast? = some n.id ↔
      ∀ id ∈ a.list n.partition, id ≤ n.id := by
  have hmem := (a.mem_list_save n state n.id).2 (.inl rfl)
  have hpos := List.length_pos_of_mem hmem
  rw [record, list_purge, List.getLast?_drop, if_neg (by omega),
    getLast?_eq_some_of_ascending (pairwise_list _ _) hmem]
  simp only [mem_list_save, forall_eq_or_imp, UInt64.le_refl, true_and]

end Record

end MemoryArchive

end Tidemark
