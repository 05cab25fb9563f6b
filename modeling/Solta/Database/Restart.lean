import Solta.Database.Persistence

/-!
What the cache says is complete.

Whatever is pruned and however often the app is started again, a query is answered from the cache
as complete only when all data at its path was saved, and then with that data as it was saved
last.
-/

namespace Solta

open Lib Overwrite FImmutableTree FSnapshotUtilities FLevelDBStorageEngine

open Lib.SortedList hiding below

namespace FTrackedQueryManager

variable {V : Type} {scmp : ChildKey → ChildKey → Ordering} {m : FPersistenceManager V scmp}
variable {p q : List ChildKey} {query : FTrackedQuery} {names : Set ChildKey}
variable [Std.TransCmp scmp]

/-! ### Pruning -/

/-- A query that is gone through is found under its path. -/
lemma find_of_mem_forEach (hm : Tracks names m)
    (h : (p, some query) ∈ m.trackedQueryTree.forEach) : findTrackedQuery m p = some query := by
  rw [findTrackedQuery, (mem_forEach hm.ordered p _).mp ⟨p, tied_refl p, h⟩]
  rfl

lemma mem_trackedQueries (hm : Tracks names m) :
    query ∈ trackedQueries m ↔ findTrackedQuery m query.path = some query := by
  rw [trackedQueries, List.mem_filterMap]
  constructor
  · rintro ⟨⟨p, _⟩, hmem, rfl⟩
    exact hm.find_path (find_of_mem_forEach hm hmem)
  · intro h
    obtain ⟨q, -, hmem⟩ :=
      (mem_forEach hm.ordered query.path _).mpr (Option.join_eq_some_iff.mp h)
    exact ⟨(q, some query), hmem, rfl⟩

/-- No path is that of two queries. -/
lemma nodup_trackedQueries (hm : Tracks names m) :
    ((trackedQueries m).map FTrackedQuery.path).Nodup := by
  have hpaths : m.trackedQueryTree.forEach.Pairwise fun e f => ¬ Tied scmp e.1 f.1 :=
    List.pairwise_map.mp (pairwise_forEach hm.ordered)
  refine List.pairwise_map.mpr (List.pairwise_filterMap.mpr ?_)
  refine hpaths.imp_of_mem fun {e f} he hf hnot query hquery query' hquery' hsame => hnot ?_
  have hpath : ∀ e ∈ m.trackedQueryTree.forEach, ∀ query, e.2 = some query →
      Tied scmp e.1 query.path := by
    rintro ⟨p, _⟩ hmem query rfl
    exact hm.path p query (find_of_mem_forEach hm hmem)
  have htied := hpath e he query hquery
  rw [hsame] at htied
  exact htied.trans (hpath f hf query' hquery').symm

/-- **Some queries are tracked no more**. -/
lemma exists_removed_foldlM (hm : Tracks names m) {qs : List FTrackedQuery}
    (hqs : ∀ query ∈ qs, findTrackedQuery m query.path = some query)
    (hnodup : (qs.map FTrackedQuery.path).Nodup) :
    ∃ m', qs.foldlM removeTrackedQuery m = some m' ∧ Tracks names m' ∧
      m'.storageEngine.serverCacheDB = m.storageEngine.serverCacheDB ∧
      ∀ p, findTrackedQuery m' p =
        if ∃ query ∈ qs, Tied scmp p query.path then none else findTrackedQuery m p := by
  induction qs generalizing m with
  | nil => exact ⟨m, rfl, hm, rfl, fun p => by simp⟩
  | cons query qs ih =>
    obtain ⟨hnot, hnodup⟩ := List.nodup_cons.mp hnodup
    have hquery := hqs query (by simp)
    obtain ⟨m₁, hremove, hm₁, hcache₁, hfind₁⟩ := hm.exists_removeTrackedQuery hquery
    have hrest : ∀ query' ∈ qs, findTrackedQuery m₁ query'.path = some query' := by
      intro query' h'
      have hquery' := hqs query' (by simp [h'])
      rw [hfind₁, if_neg]
      · exact hquery'
      · -- queries whose paths tie are one query
        intro htied
        rw [find_congr htied, hquery] at hquery'
        rw [Option.some.inj hquery'] at hnot
        exact hnot (List.mem_map_of_mem h')
    obtain ⟨m', hm', htracks, hcache, hfind⟩ := ih hm₁ hrest hnodup
    refine ⟨m', ?_, htracks, hcache.trans hcache₁, fun p => ?_⟩
    · rw [List.foldlM_cons, hremove]
      exact hm'
    · rw [hfind, hfind₁]
      by_cases hp : Tied scmp p query.path <;> simp [hp]

lemma numberOfQueriesToPrune_le (cachePolicy : FCachePolicy) (numPrunable : ℕ) :
    numberOfQueriesToPrune cachePolicy numPrunable ≤ numPrunable := by
  have hmul := Float32.ceilf_mul_le cachePolicy.percent_mem numPrunable
  rw [numberOfQueriesToPrune]
  split
  · exact max_le (Nat.sub_le _ _) hmul
  · exact max_le (Nat.zero_le _) hmul

/-- **What a pruning leaves**: the queries that are still tracked are kept. -/
lemma exists_pruneOldQueries (hm : Tracks names m) (cachePolicy : FCachePolicy) :
    ∃ pruneForest m', pruneOldQueries m cachePolicy = some (pruneForest, m') ∧
      pruneForest.Bare scmp ∧ Tracks names m' ∧
      m'.storageEngine.serverCacheDB = m.storageEngine.serverCacheDB ∧
      ∀ p query, findTrackedQuery m' p = some query →
        findTrackedQuery m p = some query ∧ pruneForest.Keeps scmp query.path := by
  have hempty : (FPruneForest.empty : FPruneForest ChildKey).Unkept scmp :=
    FPruneForest.unkept_empty
  rw [pruneOldQueries, if_neg (Nat.not_lt.mpr (numberOfQueriesToPrune_le cachePolicy _))]
  set pruneable := ((trackedQueries m).filter (!·.isActive)).insertionSort
    (fun q1 q2 => q1.lastUse ≤ q2.lastUse) with hpruneable
  set numToPrune := numberOfQueriesToPrune cachePolicy pruneable.length
  obtain ⟨pruned, hpruned, hunkept⟩ := FPruneForest.exists_foldlM_prunePath hempty
    ((pruneable.take numToPrune).map FTrackedQuery.path)
  have hpruneableMem : ∀ query, query ∈ pruneable ↔
      query ∈ trackedQueries m ∧ query.isActive = false := by
    intro query
    rw [hpruneable, List.mem_insertionSort, List.mem_filter, Bool.not_eq_true']
  have hnodup : (pruneable.map FTrackedQuery.path).Nodup := by
    have hperm := List.perm_insertionSort (fun q1 q2 => q1.lastUse ≤ q2.lastUse)
      ((trackedQueries m).filter (!·.isActive))
    refine (hperm.map FTrackedQuery.path).nodup_iff.mpr ?_
    exact (nodup_trackedQueries hm).sublist (List.filter_sublist.map _)
  obtain ⟨m', hremoved, htracks, hcache, hfind⟩ := exists_removed_foldlM hm
    (fun query hquery => (mem_trackedQueries hm).mp
      ((hpruneableMem query).mp (List.mem_of_mem_take hquery)).1)
    (hnodup.sublist ((List.take_sublist numToPrune pruneable).map _))
  obtain ⟨hbare, hkeeps⟩ := FPruneForest.keeps_foldl hunkept.bare
    ((pruneable.drop numToPrune ++ (trackedQueries m).filter (·.isActive)).map FTrackedQuery.path)
  refine ⟨_, m', by rw [hpruned, Option.bind_some, hremoved]; rfl, hbare, htracks, hcache,
    fun p query h => ?_⟩
  rw [hfind] at h
  split at h
  · cases h
  · rename_i hp
    refine ⟨h, hkeeps query.path (.inr ?_)⟩
    refine List.mem_map_of_mem (List.mem_append.mpr ?_)
    have hmem := (mem_trackedQueries hm).mpr (hm.find_path h)
    cases hactive : query.isActive
    · have hin := (hpruneableMem query).mpr ⟨hmem, hactive⟩
      rw [← List.take_append_drop numToPrune pruneable] at hin
      rcases List.mem_append.mp hin with hin | hin
      · exact absurd ⟨query, hin, hm.path p query h⟩ hp
      · exact .inl hin
    · exact .inr (List.mem_filter.mpr ⟨hmem, hactive⟩)

/-! ### Starting again -/

omit [Std.TransCmp scmp] in
lemma mem_loadTrackedQueries (hm : Tracks names m) :
    query ∈ m.storageEngine.loadTrackedQueries ↔ findTrackedQuery m query.path = some query := by
  rw [← hm.stored, loadTrackedQueries, PrefixRange.range_eq m.storageEngine.trackedQueriesDB.sorted,
    List.mem_map]
  constructor
  · rintro ⟨⟨key, query⟩, hmem, rfl⟩
    have hentry := List.mem_of_mem_filter hmem
    have hkey := hm.keyed _ hentry
    dsimp only at hkey
    rw [hkey] at hentry
    exact APLevelDB.dataForKey_eq_some_iff.mpr hentry
  · intro h
    refine ⟨_, List.mem_filter.mpr ⟨APLevelDB.dataForKey_eq_some_iff.mp h, ?_⟩, rfl⟩
    exact decide_eq_true (List.prefix_append _ _)

lemma restarted_path (lastUse : ℕ) (query : FTrackedQuery) :
    (restarted lastUse query).path = query.path := by
  rw [restarted]
  split <;> rfl

lemma restarted_queryId (lastUse : ℕ) (query : FTrackedQuery) :
    (restarted lastUse query).queryId = query.queryId := by
  rw [restarted]
  split <;> rfl

lemma restarted_isComplete (lastUse : ℕ) (query : FTrackedQuery) :
    (restarted lastUse query).isComplete = query.isComplete := by
  rw [restarted]
  split <;> rfl

/-- The manager `m'` that has loaded some of the queries which `m` had. -/
structure Loaded (names : Set ChildKey) (m : FPersistenceManager V scmp) (lastUse : ℕ)
    (done : List FTrackedQuery) (m' : FPersistenceManager V scmp) : Prop where
  ordered : Ordered scmp names m'.trackedQueryTree
  cache : m'.storageEngine.serverCacheDB = m.storageEngine.serverCacheDB
  keyed : Keyed m'.storageEngine
  fresh : ∀ query ∈ done, query.queryId < m'.currentQueryId
  find : ∀ p query', findTrackedQuery m' p = some query' → ∃ query ∈ done,
    findTrackedQuery m p = some query ∧ query' = restarted lastUse query
  all : ∀ query ∈ done, findTrackedQuery m' query.path = some (restarted lastUse query)
  saved : ∀ query, findTrackedQuery m query.path = some query →
    stored m' query.queryId = some (restarted lastUse query) ∨
      query ∉ done ∧ stored m' query.queryId = some query
  stored : ∀ query, stored m' query.queryId = some query →
    findTrackedQuery m' query.path = some query ∨ findTrackedQuery m query.path = some query

/-- One query more. -/
lemma Loaded.load (hm : Tracks names m) {lastUse : ℕ} {done : List FTrackedQuery}
    {m' : FPersistenceManager V scmp} (h : Loaded names m lastUse done m')
    (hdone : ∀ query ∈ done, findTrackedQuery m query.path = some query)
    (hquery : findTrackedQuery m query.path = some query) :
    Loaded names m lastUse (done ++ [query]) (FTrackedQueryManager.load lastUse m' query) := by
  have hfind : ∀ p, findTrackedQuery (FTrackedQueryManager.load lastUse m' query) p =
      if Tied scmp p query.path then some (restarted lastUse query)
      else findTrackedQuery m' p := by
    intro p
    rw [FTrackedQueryManager.load]
    split
    · rw [find_track, restarted_path]
      rfl
    · rename_i hactive
      rw [find_cacheTrackedQuery, restarted, if_neg hactive]
      rfl
  have hstored : ∀ queryId,
      FTrackedQueryManager.stored (FTrackedQueryManager.load lastUse m' query) queryId =
        if query.isActive ∧ queryId = query.queryId then some (restarted lastUse query)
        else FTrackedQueryManager.stored m' queryId := by
    intro queryId
    rw [FTrackedQueryManager.load]
    split
    · rename_i hactive
      rw [stored_track, restarted_queryId]
      simp only [hactive, true_and]
      rfl
    · rename_i hactive
      rw [if_neg fun h => hactive h.1]
      rfl
  have hcurrent : (FTrackedQueryManager.load lastUse m' query).currentQueryId =
      max (query.queryId + 1) m'.currentQueryId := by
    rw [FTrackedQueryManager.load]
    split <;> rfl
  have hsame : ∀ query', findTrackedQuery m query'.path = some query' →
      query'.queryId = query.queryId → query' = query := by
    intro query' h' hid
    rw [find_congr (hm.unique _ _ _ _ h' hquery hid), hquery] at h'
    exact (Option.some.inj h').symm
  have hnamed := hm.named _ _ hquery
  constructor
  · rw [FTrackedQueryManager.load]
    split
    · exact h.ordered.setValue _ (by rwa [restarted_path])
    · exact h.ordered.setValue _ hnamed
  · rw [FTrackedQueryManager.load]
    split <;> exact h.cache
  · rw [FTrackedQueryManager.load]
    split
    · exact h.keyed.saveTrackedQuery _
    · exact h.keyed
  · intro query' h'
    rw [hcurrent]
    rcases List.mem_append.mp h' with h' | h'
    · exact (h.fresh query' h').trans_le (le_max_right _ _)
    · rw [List.mem_singleton.mp h']
      exact (Nat.lt_succ_self _).trans_le (le_max_left _ _)
  · intro p query' h'
    rw [hfind] at h'
    split at h'
    · rename_i hp
      cases h'
      exact ⟨query, by simp, (find_congr hp).trans hquery, rfl⟩
    · obtain ⟨old, hold, hfound, hrestarted⟩ := h.find p query' h'
      exact ⟨old, by simp [hold], hfound, hrestarted⟩
  · intro query' h'
    rw [hfind]
    split
    · rename_i hp
      have heq : query' = query := by
        rcases List.mem_append.mp h' with h' | h'
        · have hfound := hdone query' h'
          rw [find_congr hp, hquery] at hfound
          exact (Option.some.inj hfound).symm
        · exact List.mem_singleton.mp h'
      rw [heq]
    · rename_i hp
      rcases List.mem_append.mp h' with h' | h'
      · exact h.all query' h'
      · rw [List.mem_singleton.mp h'] at hp
        exact absurd (tied_refl _) hp
  · intro query' h'
    rw [hstored]
    split
    · rename_i hid
      rw [hsame query' h' hid.2]
      exact .inl rfl
    · rename_i hid
      rcases h.saved query' h' with hsaved | ⟨hnot, hsaved⟩
      · exact .inl hsaved
      · by_cases heq : query' = query
        · refine .inl ?_
          have hinactive : ¬ query.isActive := fun hactive => hid ⟨hactive, by rw [heq]⟩
          rw [heq] at hsaved ⊢
          rw [restarted, if_neg hinactive]
          exact hsaved
        · exact .inr ⟨by simp [hnot, heq], hsaved⟩
  · intro query' h'
    rw [hstored] at h'
    rw [hfind]
    split at h'
    · cases h'
      exact .inl (if_pos (by rw [restarted_path]; exact tied_refl _))
    · rename_i hid
      rcases h.stored query' h' with hfound | hfound
      · split
        · rename_i hp
          obtain ⟨old, -, hold, hrestarted⟩ := h.find _ _ hfound
          rw [find_congr hp, hquery] at hold
          cases hold
          exact .inl (congrArg some hrestarted.symm)
        · exact .inl hfound
      · exact .inr hfound

omit [Std.TransCmp scmp] in
/-- No query is tracked before one is loaded. -/
lemma find_empty (storageEngine : FLevelDBStorageEngine V) (currentQueryId : ℕ)
    (p : List ChildKey) : findTrackedQuery
      (⟨storageEngine, .empty, currentQueryId⟩ : FPersistenceManager V scmp) p = none := by
  rw [findTrackedQuery, valueAtPath_empty]
  rfl

omit [Std.TransCmp scmp] in
lemma tracks_init : Tracks names (FPersistenceManager.init scmp : FPersistenceManager V scmp) := by
  have hnone : ∀ p, findTrackedQuery
      (FPersistenceManager.init scmp : FPersistenceManager V scmp) p = none := find_empty _ _
  refine ⟨ordered_empty, ?_, ?_, ?_, ?_, ?_, ?_⟩
  · intro p query h
    rw [hnone] at h
    cases h
  · intro p query h
    rw [hnone] at h
    cases h
  · intro p query h
    rw [hnone] at h
    cases h
  · intro p p' query query' h
    rw [hnone] at h
    cases h
  · intro entry hentry
    cases hentry
  · intro query
    rw [hnone]
    exact Iff.rfl

/-- **Starting again** loads all queries, none of them active. -/
lemma tracks_initWithStorageEngine (hm : Tracks names m) (lastUse : ℕ) :
    Tracks names (initWithStorageEngine scmp m.storageEngine lastUse) ∧
      (initWithStorageEngine scmp m.storageEngine lastUse).storageEngine.serverCacheDB =
        m.storageEngine.serverCacheDB ∧
      ∀ p query', findTrackedQuery (initWithStorageEngine scmp m.storageEngine lastUse) p =
        some query' → ∃ query, findTrackedQuery m p = some query ∧
          query' = restarted lastUse query := by
  have hnone : ∀ p, findTrackedQuery
      (⟨m.storageEngine, .empty, 0⟩ : FPersistenceManager V scmp) p = none := find_empty _ 0
  have hloaded : ∀ done : List FTrackedQuery,
      (∀ query ∈ done, findTrackedQuery m query.path = some query) →
        Loaded names m lastUse done (done.foldl (load lastUse) ⟨m.storageEngine, .empty, 0⟩) := by
    intro done hdone
    induction done using List.reverseRecOn with
    | nil =>
      refine ⟨ordered_empty, rfl, hm.keyed, by simp, fun p query' h => ?_, by simp,
        fun query h => .inr ⟨by simp, (hm.stored query).mpr h⟩,
        fun query h => .inr ((hm.stored query).mp h)⟩
      rw [List.foldl_nil, hnone] at h
      cases h
    | append_singleton done query ih =>
      have hdone' : ∀ query ∈ done, findTrackedQuery m query.path = some query := fun q hq =>
        hdone q (by simp [hq])
      rw [List.foldl_append, List.foldl_cons, List.foldl_nil]
      exact (ih hdone').load hm hdone' (hdone query (by simp))
  have h : Loaded names m lastUse m.storageEngine.loadTrackedQueries
      (initWithStorageEngine scmp m.storageEngine lastUse) :=
    hloaded _ fun query hquery => (mem_loadTrackedQueries hm).mp hquery
  generalize initWithStorageEngine scmp m.storageEngine lastUse = m' at h
  have hsub : ∀ p query', findTrackedQuery m' p = some query' →
      ∃ query, findTrackedQuery m p = some query ∧ query' = restarted lastUse query := by
    intro p query' h'
    obtain ⟨query, -, hfound, hrestarted⟩ := h.find p query' h'
    exact ⟨query, hfound, hrestarted⟩
  have hsaved : ∀ query, findTrackedQuery m query.path = some query →
      stored m' query.queryId = some (restarted lastUse query) ∧
        findTrackedQuery m' query.path = some (restarted lastUse query) := by
    intro query hquery
    have hmem := (mem_loadTrackedQueries hm).mpr hquery
    refine ⟨?_, h.all query hmem⟩
    rcases h.saved query hquery with hstored | ⟨hnot, -⟩
    · exact hstored
    · exact absurd hmem hnot
  refine ⟨⟨h.ordered, ?_, ?_, ?_, ?_, h.keyed, ?_⟩, h.cache, hsub⟩
  · intro p query' h'
    obtain ⟨query, hfound, rfl⟩ := hsub p query' h'
    rw [restarted_path]
    exact hm.path p query hfound
  · intro p query' h'
    obtain ⟨query, hfound, rfl⟩ := hsub p query' h'
    rw [restarted_path]
    exact hm.named p query hfound
  · intro p query' h'
    obtain ⟨query, hmem, -, rfl⟩ := h.find p query' h'
    rw [restarted_queryId]
    exact h.fresh query hmem
  · intro p p' query₁ query₂ h₁ h₂ hid
    obtain ⟨old₁, hfound₁, rfl⟩ := hsub p query₁ h₁
    obtain ⟨old₂, hfound₂, rfl⟩ := hsub p' query₂ h₂
    rw [restarted_queryId, restarted_queryId] at hid
    exact hm.unique p p' old₁ old₂ hfound₁ hfound₂ hid
  · intro query'
    constructor
    · intro h'
      rcases h.stored query' h' with hfound | hfound
      · exact hfound
      · obtain ⟨hstored, hfound'⟩ := hsaved query' hfound
        rw [h'] at hstored
        rw [← Option.some.inj hstored] at hfound'
        exact hfound'
    · intro h'
      obtain ⟨query, hfound, hrestarted⟩ := hsub _ _ h'
      obtain ⟨hstored, -⟩ := hsaved query (hm.find_path hfound)
      rw [hrestarted, restarted_queryId]
      exact hstored

/-! ### What is known of a path -/

omit [Std.TransCmp scmp] in
lemma isIncluded_iff (m : FPersistenceManager V scmp) (path : List ChildKey) :
    isIncludedInDefaultCompleteQuery m path ↔
      ∃ p, p <+: path ∧ ∃ query, findTrackedQuery m p = some query ∧ query.isComplete := by
  rw [isIncludedInDefaultCompleteQuery, ← Option.isSome_map (f := Prod.snd),
    findRootMostMatchingPath_eq, isSome_rootMostValueOnPath]
  refine exists_congr fun p => and_congr_right fun _ => ?_
  rw [findTrackedQuery]
  cases m.trackedQueryTree.valueAtPath scmp p with
  | none => simp
  | some query => cases query <;> simp

/-- The children for which there is a complete query. -/
lemma find_of_mem_known (hm : Tracks names m) {path : List ChildKey} {k : ChildKey}
    (hk : k ∈ knownCompleteChildrenAtPath m path) : k ∈ names ∧
      ∃ query, findTrackedQuery m (path ++ [k]) = some query ∧ query.isComplete := by
  obtain ⟨⟨k', child⟩, hmem, hchild⟩ := List.mem_filterMap.mp hk
  split at hchild
  · rename_i hcomplete
    cases hchild
    have hvalue : k' ∈ names ∧
        m.trackedQueryTree.valueAtPath scmp (path ++ [k']) = child.value := by
      have hordered := hm.ordered.subtreeAtPath path
      rw [← valueAtPath_subtreeAtPath]
      generalize m.trackedQueryTree.subtreeAtPath scmp path = t at hmem hordered
      cases hordered with
      | of v hs hn _ =>
        have hfind := (find_eq_some_iff_tie hs).mpr ⟨k', Std.ReflCmp.compare_self, hmem⟩
        rw [valueAtPath_cons, hfind, Option.bind_some, valueAtPath_nil]
        exact ⟨hn _ hmem, rfl⟩
    rw [← hvalue.2, Option.any_eq_true] at hcomplete
    exact ⟨hvalue.1, hcomplete⟩
  · cases hchild

end FTrackedQueryManager

namespace FLevelDBStorageEngine

variable {V : Type} {scmp : ChildKey → ChildKey → Ordering} {e e' : FLevelDBStorageEngine V}
variable {f g : Leaves ChildKey V}
variable {p q path : List ChildKey}

lemma Stored.congr (he : Stored e f) (h : e'.serverCacheDB = e.serverCacheDB) : Stored e' f := by
  refine ⟨fun q => ?_, fun entry hentry => ?_, he.lone⟩
  · rw [h]
    exact he.data q
  · rw [h] at hentry
    exact he.keys entry hentry

/-- What is left of a tree that is pruned. -/
def pruned (scmp : ChildKey → ChildKey → Ordering) (f : Leaves ChildKey V)
    (pruneForest : FPruneForest ChildKey) : Leaves ChildKey V :=
  fun q => if pruneForest.shouldPruneUnkeptDescendantsAtPath scmp q then none else f q

/-- **Pruning takes away** the leaves that the forest does not keep. -/
lemma Stored.pruneCache (he : Stored e f) (pruneForest : FPruneForest ChildKey) :
    Stored (e.pruneCache scmp pruneForest []) (pruned scmp f pruneForest) := by
  have hrelative : ∀ q : List ChildKey, FPath.pathWithString
      ((serverCacheKey q).drop (serverCacheKey []).length) = some q := by
    intro q
    have happend := serverCacheKey_append [] q
    rw [List.nil_append] at happend
    rw [happend, List.drop_left]
    exact pathWithString_pathKey q
  rw [FLevelDBStorageEngine.pruneCache]
  dsimp only
  set batch := (e.serverCacheDB.enumerateKeysWithPrefix (serverCacheKey [])).filterMap
    (fun dbKey => if (FPath.pathWithString (dbKey.drop (serverCacheKey []).length)).any
      (pruneForest.shouldPruneUnkeptDescendantsAtPath scmp) then
        some (APLevelDB.Write.remove dbKey : APLevelDB.Write (Json V)) else none) with hbatch
  have hmem : ∀ w ∈ batch, ∃ key, w = .remove key ∧
      (FPath.pathWithString (key.drop (serverCacheKey []).length)).any
        (pruneForest.shouldPruneUnkeptDescendantsAtPath scmp) := by
    intro w hw
    obtain ⟨key, -, hkey⟩ := List.mem_filterMap.mp hw
    split at hkey
    · rename_i hprune
      cases hkey
      exact ⟨key, rfl, hprune⟩
    · cases hkey
  have hremoves : ∀ w ∈ batch, w.data = none := by
    intro w hw
    obtain ⟨key, rfl, -⟩ := hmem w hw
    rfl
  refine ⟨fun q => ?_, fun entry hentry hpre => ?_, fun q r v w hv hw => ?_⟩
  · rw [pruned]
    split
    · rename_i hprune
      rw [Option.map_none]
      have hgone : (e.serverCacheDB.commitWriteBatch batch).dataForKey (serverCacheKey q) = none ∨
          _ := APLevelDB.dataForKey_removed hremoves
      rcases hgone with h | ⟨hnot, h⟩
      · exact h
      · rw [h]
        by_contra hdata
        refine hnot (.remove (serverCacheKey q)) (List.mem_filterMap.mpr ⟨serverCacheKey q, ?_, ?_⟩)
          rfl
        · exact APLevelDB.mem_enumerateKeysWithPrefix.mpr
            ⟨serverCacheKey_begins.mpr List.nil_prefix, hdata⟩
        · rw [hrelative, if_pos]
          exact hprune
    · rename_i hkeep
      rw [APLevelDB.dataForKey_commit_of_ne, he.data]
      intro w hw hkey
      obtain ⟨key, rfl, hprune⟩ := hmem w hw
      have hkey' : key = serverCacheKey q := hkey
      rw [hkey', hrelative] at hprune
      exact hkeep hprune
  · obtain ⟨key, d⟩ := entry
    have hdata := APLevelDB.dataForKey_eq_some_iff.mpr hentry
    rcases APLevelDB.dataForKey_commit_ne_none (by rw [hdata]; simp) with hold | ⟨d', hset⟩
    · obtain ⟨d', hd'⟩ := Option.ne_none_iff_exists'.mp hold
      exact he.keys (key, d') (APLevelDB.dataForKey_eq_some_iff.mp hd') hpre
    · obtain ⟨key', hkey', -⟩ := hmem _ hset
      cases hkey'
  · rw [pruned] at hv hw
    split at hv
    · cases hv
    · split at hw
      · cases hw
      · exact he.lone q r v w hv hw

/-- An update says the same of a path where it was the same before. -/
lemma updated_congr {node : FNode ChildKey V} {merge : Bool} (h : f q = g q) :
    updated f node path merge q = updated g node path merge q := by
  rw [updated, updated]
  by_cases hex : ∃ w ∈ (targets node path merge).map
      fun w => (w.1, w.2.valueAt ChildKey.compare), ¬ Apart w.1 q
  · exact puts_congr hex
  · have hall : ∀ w ∈ (targets node path merge).map
        fun w => (w.1, w.2.valueAt ChildKey.compare), Apart w.1 q := fun w hw =>
      by_contra fun hnot => hex ⟨w, hw, hnot⟩
    rw [puts_of_apart hall, puts_of_apart hall, clear, clear, h]

/-- An update of a whole node decides what is below its path. -/
lemma updated_below (f g : Leaves ChildKey V) (node : FNode ChildKey V) (h : path <+: q) :
    updated f node path false q = updated g node path false q :=
  puts_congr ⟨_, List.mem_singleton_self _, fun hapart => hapart.1 h⟩

end FLevelDBStorageEngine

namespace FPersistenceManager

open FTrackedQueryManager

variable {V : Type} {scmp : ChildKey → ChildKey → Ordering} {m m' : FPersistenceManager V scmp}
variable {us : List (Update V)} {names : Set ChildKey} {p : List ChildKey} {query : FTrackedQuery}

/-! ### Runs -/

/-- The data as it was saved. -/
def told (us : List (Update V)) : Leaves ChildKey V := updates (fun _ => none) us

/-- **The invariant**: below the path of a complete query the cache has what was saved, and all of
it was. -/
structure Truthful (names : Set ChildKey) (m : FPersistenceManager V scmp)
    (us : List (Update V)) : Prop where
  tracks : Tracks names m
  cache : ∃ g, Stored m.storageEngine g ∧
    (∀ q v, g q = some v → q.length ≤ kFirebaseMaxObjectDepth) ∧
      ∀ p, (∀ k ∈ p, k ∈ names) → ∀ query, findTrackedQuery m p = some query → query.isComplete →
        Overwrite.below g p = Overwrite.below (told us) p ∧ ∃ u ∈ us, u.path <+: p

/-- No query gets complete, and the cache stays as it is. -/
lemma Truthful.same (hm : Truthful names m us) (htracks : Tracks names m')
    (hcache : m'.storageEngine.serverCacheDB = m.storageEngine.serverCacheDB)
    (hfind : ∀ p query, findTrackedQuery m' p = some query → query.isComplete →
      ∃ old, findTrackedQuery m p = some old ∧ old.isComplete) : Truthful names m' us := by
  obtain ⟨g, hg, hdepth, hsame⟩ := hm.cache
  refine ⟨htracks, g, hg.congr hcache, hdepth, fun p hp query h hcomplete => ?_⟩
  obtain ⟨old, hold, hcomplete'⟩ := hfind p query h hcomplete
  exact hsame p hp old hold hcomplete'

/-- A node is saved, and queries at and below its path may get complete. -/
lemma Truthful.update (hm : Truthful names m us) (u : Placed V) (htracks : Tracks names m')
    (hcache : m'.storageEngine.serverCacheDB =
      (m.storageEngine.updateServerCache u.node u.path false).serverCacheDB)
    (hfind : ∀ p, (∀ k ∈ p, k ∈ names) → ∀ query, findTrackedQuery m' p = some query →
      query.isComplete → u.path <+: p ∨ ∃ old, findTrackedQuery m p = some old ∧ old.isComplete) :
    Truthful names m' (us ++ [⟨u, false⟩]) := by
  obtain ⟨g, hg, hdepth, hsame⟩ := hm.cache
  have htold : told (us ++ [⟨u, false⟩]) = updated (told us) u.node u.path false := by
    rw [told, updates, List.foldl_append]
    rfl
  refine ⟨htracks, updated g u.node u.path false,
    (hg.updateServerCache u.canonical u.path false).congr hcache,
    shallow_updates [⟨u, false⟩] hdepth, fun p hp query h hcomplete => ?_⟩
  rw [htold]
  rcases hfind p hp query h hcomplete with hpath | ⟨old, hold, hcomplete'⟩
  · refine ⟨funext fun r => ?_, ⟨u, false⟩, by simp, hpath⟩
    exact updated_below _ _ _ (hpath.trans (List.prefix_append p r))
  · obtain ⟨hbelow, u', hu', hpath⟩ := hsame p hp old hold hcomplete'
    refine ⟨funext fun r => ?_, u', by simp [hu'], hpath⟩
    exact updated_congr (congrFun hbelow r)

/-- A query is under its path only. -/
lemma path_of_find (huntied : Untied scmp names) (hm : Tracks names m) (hp : ∀ k ∈ p, k ∈ names)
    (h : findTrackedQuery m p = some query) : p = query.path :=
  (hm.path p query h).eq huntied hp (hm.named p query h)

variable [Std.TransCmp scmp]

lemma Truthful.applyUserWrite (huntied : Untied scmp names) (hm : Truthful names m us)
    (u : Placed V) (hu : ∀ k ∈ u.path, k ∈ names) (lastUse : ℕ) :
    ∃ m', m.applyUserWrite u.node u.path lastUse = some m' ∧
      Truthful names m' (us ++ m.saved (.applyUserWrite u lastUse)) := by
  rw [FPersistenceManager.applyUserWrite, saved]
  split
  · rw [List.append_nil]
    exact ⟨m, rfl, hm⟩
  · set m₁ : FPersistenceManager V scmp :=
      { m with storageEngine := m.storageEngine.updateServerCache u.node u.path false } with hm₁
    have htracks : Tracks names m₁ := hm.tracks.of_cache rfl
    rw [ensureCompleteTrackedQueryAtPath]
    split
    · refine ⟨m₁, rfl, hm.update u htracks rfl fun p hp query h hcomplete => ?_⟩
      exact .inr ⟨query, h, hcomplete⟩
    · rename_i hincluded
      cases hold : findTrackedQuery m₁ u.path with
      | none =>
        refine ⟨_, rfl, hm.update u (htracks.track_next hu hold rfl) rfl
          fun p hp query h hcomplete => ?_⟩
        rcases eq_or_find_of_track h with ⟨htied, -⟩ | h
        · rw [htied.eq huntied hp hu]
          exact .inl (List.prefix_refl _)
        · exact .inr ⟨query, h, hcomplete⟩
      | some old =>
        have hpath : u.path = old.path := path_of_find huntied htracks hu hold
        have hold' : findTrackedQuery m₁ old.setComplete.path = some old :=
          htracks.find_path hold
        have hincomplete : ¬ old.isComplete := fun hcomplete => hincluded
          ((isIncluded_iff m₁ u.path).mpr ⟨u.path, List.prefix_refl _, old, hold, hcomplete⟩)
        dsimp only
        rw [if_neg hincomplete]
        refine ⟨_, rfl, hm.update u (htracks.track (htracks.fits hold' rfl rfl)) rfl
          fun p hp query h hcomplete => ?_⟩
        rcases eq_or_find_of_track h with ⟨htied, -⟩ | h
        · rw [hpath] at hu ⊢
          rw [Tied.eq huntied hp hu htied]
          exact .inl (List.prefix_refl _)
        · exact .inr ⟨query, h, hcomplete⟩

lemma Truthful.updateServerCache (huntied : Untied scmp names) (hm : Truthful names m us)
    (u : Placed V) (hu : ∀ k ∈ u.path, k ∈ names) :
    Truthful names (m.updateServerCacheWithNode u.node u.path) (us ++ [⟨u, false⟩]) := by
  have htracks : Tracks names
      { m with storageEngine := m.storageEngine.updateServerCache u.node u.path false } :=
    hm.tracks.of_cache rfl
  have hcompleted := completed_setQueriesComplete htracks u.path
  refine hm.update u hcompleted.tracks hcompleted.cache fun p hp query h hcomplete => ?_
  rcases hcompleted.find p with hfind | ⟨hpath, -⟩
  · exact .inr ⟨query, hfind.symm.trans h, hcomplete⟩
  · exact .inl (hpath.begins huntied hu hp)

/-- Only a query that is tracked is made inactive. -/
def Allowed (m : FPersistenceManager V scmp) : Call V → Prop
  | .setQueryActive isActive path _ => isActive = true ∨ findTrackedQuery m path ≠ none
  | _ => True

lemma Truthful.setQueryActive (hm : Truthful names m us) {isActive : Bool} {path : List ChildKey}
    (hpath : ∀ k ∈ path, k ∈ names) {lastUse : ℕ}
    (hallowed : Allowed m (.setQueryActive isActive path lastUse)) :
    ∃ m', FTrackedQueryManager.setQueryActive m isActive path lastUse = some m' ∧
      Truthful names m' us := by
  rw [FTrackedQueryManager.setQueryActive]
  cases hold : findTrackedQuery m path with
  | none =>
    have hactive : isActive = true := hallowed.resolve_right fun hne => hne hold
    dsimp only
    rw [if_pos hactive]
    refine ⟨_, rfl, hm.same (hm.tracks.track_next hpath hold rfl) rfl
      fun p query h hcomplete => ?_⟩
    rcases eq_or_find_of_track h with ⟨-, rfl⟩ | h
    · cases hcomplete
    · exact ⟨query, h, hcomplete⟩
  | some old =>
    have hold' : findTrackedQuery m
        ((old.updateLastUse lastUse).setActiveState isActive).path = some old :=
      hm.tracks.find_path hold
    refine ⟨_, rfl, hm.same (hm.tracks.track (hm.tracks.fits hold' rfl rfl)) rfl
      fun p query h hcomplete => ?_⟩
    rcases eq_or_find_of_track h with ⟨htied, rfl⟩ | h
    · exact ⟨old, (find_congr htied).trans hold', hcomplete⟩
    · exact ⟨query, h, hcomplete⟩

lemma Truthful.prune (huntied : Untied scmp names) (hm : Truthful names m us)
    (cachePolicy : FCachePolicy) :
    ∃ m', m.prune cachePolicy = some m' ∧ Truthful names m' us := by
  obtain ⟨pruneForest, m', hprune, hbare, htracks, hcache, hfind⟩ :=
    exists_pruneOldQueries hm.tracks cachePolicy
  refine ⟨_, by rw [FPersistenceManager.prune, hprune]; rfl, ?_⟩
  dsimp only
  split
  · obtain ⟨g, hg, hdepth, hsame⟩ := hm.cache
    refine ⟨htracks.of_cache rfl, pruned scmp g pruneForest,
      (hg.congr hcache).pruneCache pruneForest, ?_, ?_⟩
    · intro q v h
      rw [pruned] at h
      split at h
      · cases h
      · exact hdepth q v h
    · intro p hp query h hcomplete
      obtain ⟨hfound, hkeeps⟩ := hfind p query h
      obtain ⟨hbelow, hu⟩ := hsame p hp query hfound hcomplete
      rw [← path_of_find huntied hm.tracks hp hfound] at hkeeps
      refine ⟨?_, hu⟩
      rw [← hbelow]
      funext r
      have hkept := FPruneForest.shouldPrune_of_keeps hbare hkeeps (List.prefix_append p r)
      rw [Overwrite.below, Overwrite.below, pruned, hkept]
      rfl
  · exact hm.same htracks hcache fun p query h hcomplete => ⟨query, (hfind p query h).1, hcomplete⟩

/-- The keys of the path of a call are among the names. -/
def Call.Named (names : Set ChildKey) : Call V → Prop
  | .updateServerCache u | .applyUserWrite u _ => ∀ k ∈ u.path, k ∈ names
  | .setQueryActive _ path _ => ∀ k ∈ path, k ∈ names
  | .prune _ | .restart _ => True

lemma Call.named_univ (c : Call V) : c.Named Set.univ := by
  cases c with
  | prune _ | restart _ => exact trivial
  | _ => exact fun k _ => Set.mem_univ k

/-- **Each call that is allowed** is answered and keeps the invariant. -/
lemma Truthful.exists_call (huntied : Untied scmp names) (hm : Truthful names m us) {c : Call V}
    (hnamed : c.Named names) (hallowed : Allowed m c) :
    ∃ m', m.call c = some m' ∧ Truthful names m' (us ++ m.saved c) := by
  cases c with
  | updateServerCache u => exact ⟨_, rfl, hm.updateServerCache huntied u hnamed⟩
  | applyUserWrite u lastUse => exact hm.applyUserWrite huntied u hnamed lastUse
  | setQueryActive isActive path lastUse =>
    rw [saved, List.append_nil]
    exact hm.setQueryActive hnamed hallowed
  | prune cachePolicy =>
    rw [saved, List.append_nil]
    exact hm.prune huntied cachePolicy
  | restart lastUse =>
    obtain ⟨htracks, hcache, hfind⟩ := tracks_initWithStorageEngine hm.tracks lastUse
    refine ⟨_, rfl, ?_⟩
    rw [saved, List.append_nil]
    refine hm.same htracks hcache fun p query h hcomplete => ?_
    obtain ⟨old, hold, rfl⟩ := hfind p query h
    rw [restarted_isComplete] at hcomplete
    exact ⟨old, hold, hcomplete⟩

omit [Std.TransCmp scmp] in
/-- A call that is not allowed has no result. -/
lemma call_of_not_allowed {c : Call V} (h : ¬ Allowed m c) : m.call c = none := by
  cases c with
  | setQueryActive isActive path lastUse =>
    obtain ⟨hactive, hnone⟩ := not_or.mp h
    rw [call, FTrackedQueryManager.setQueryActive, not_not.mp hnone]
    dsimp only
    rw [if_neg hactive]
  | _ => exact absurd trivial h

omit [Std.TransCmp scmp] in
lemma truthful_init : Truthful names (init scmp : FPersistenceManager V scmp) [] := by
  refine ⟨tracks_init, fun _ => none, stored_empty, fun q v h => (by cases h), ?_⟩
  intro p _ query h
  rw [init, find_empty] at h
  cases h

/-- **A run keeps the invariant**. -/
lemma truthful_run (huntied : Untied scmp names) (hm : Truthful names m us) {cs : List (Call V)}
    (hnamed : ∀ c ∈ cs, c.Named names) {us' : List (Update V)}
    (hrun : cs.foldlM FPersistenceManager.step (m, us) = some (m', us')) :
    Truthful names m' us' := by
  induction cs generalizing m us with
  | nil =>
    cases hrun
    exact hm
  | cons c cs ih =>
    obtain ⟨hc, hcs⟩ := List.forall_mem_cons.mp hnamed
    by_cases hallowed : Allowed m c
    · obtain ⟨m₁, hcall, hm₁⟩ := hm.exists_call huntied hc hallowed
      refine ih hm₁ hcs ?_
      rw [List.foldlM_cons, FPersistenceManager.step, hcall] at hrun
      exact hrun
    · rw [List.foldlM_cons, FPersistenceManager.step, call_of_not_allowed hallowed] at hrun
      cases hrun

/-- A query is made active and its data saved, another write is acknowledged, the query is made
inactive, the data that was used longest ago is pruned, and the app restarted. -/
def restartedRun : List (Call ℕ) :=
  [.setQueryActive true [ChildKey.ofIndex 0] 1,
    .updateServerCache ⟨.leaf 5, [ChildKey.ofIndex 0], .leaf 5, by decide⟩,
    .applyUserWrite ⟨.leaf 7, [ChildKey.ofIndex 1], .leaf 7, by decide⟩ 2,
    .setQueryActive false [ChildKey.ofIndex 0] 3, .prune FLRUCachePolicy, .restart 4]

/-- What is in the cache of the run, and what was pruned. -/
lemma exists_restartedRun :
    ∃ (m : FPersistenceManager ℕ ChildKey.compare) (us : List (Update ℕ)) (r r' : FCacheNode ℕ),
      restartedRun.foldlM FPersistenceManager.step (init ChildKey.compare, []) = some (m, us) ∧
        m.serverCacheForQuery [ChildKey.ofIndex 0] = some r ∧ r.isFullyInitialized = true ∧
        m.serverCacheForQuery [ChildKey.ofIndex 1] = some r' ∧ r'.isFullyInitialized = false := by
  have hanswers : (restartedRun.foldlM FPersistenceManager.step (init ChildKey.compare, [])).any
      (fun s => (s.1.serverCacheForQuery [ChildKey.ofIndex 0]).any (·.isFullyInitialized) &&
        (s.1.serverCacheForQuery [ChildKey.ofIndex 1]).any (!·.isFullyInitialized)) = true := by
    decide +kernel
  obtain ⟨⟨m, us⟩, hrun, h⟩ := (Option.any_eq_true _ _).mp hanswers
  obtain ⟨hkept, hpruned⟩ := (Bool.and_eq_true _ _).mp h
  obtain ⟨r, hr, hcomplete⟩ := (Option.any_eq_true _ _).mp hkept
  obtain ⟨r', hr', hincomplete⟩ := (Option.any_eq_true _ _).mp hpruned
  exact ⟨m, us, r, r', hrun, hr, hcomplete, hr', by simpa using hincomplete⟩

end FPersistenceManager

end Solta
