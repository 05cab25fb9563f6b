import Solta.Float32
import Solta.Database.CacheWalk
import Solta.Database.PruneForest

/-!
What is known to be on the device.

The persistence manager tracks the app's queries, each for all data at a path. A query is complete
once the data at its path was saved. Queries that the app made longest ago are tracked no more
when there are too many, and data that no other query is for is pruned from the cache.
Queries for part of the data, which the app does not make, are left out, and when the cache is
looked at for its size, which may be at any time. Where an assertion fails there is no result.
-/

namespace Solta

open Lib Overwrite FImmutableTree FSnapshotUtilities

open Lib.SortedList hiding below

namespace FTrackedQuery

def updateLastUse (q : FTrackedQuery) (lastUse : ℕ) : FTrackedQuery :=
  { q with lastUse := lastUse }

def setActiveState (q : FTrackedQuery) (isActive : Bool) : FTrackedQuery :=
  { q with isActive := isActive }

def setComplete (q : FTrackedQuery) : FTrackedQuery := { q with isComplete := true }

end FTrackedQuery

namespace FLevelDBStorageEngine

variable {V : Type}

def kFTrackedQueriesPrefix : Text := "/tracked_queries/".toList

def trackedQueryKey (trackedQueryId : ℕ) : Text :=
  kFTrackedQueriesPrefix ++ ChildKey.number trackedQueryId

def saveTrackedQuery (e : FLevelDBStorageEngine V) (query : FTrackedQuery) :
    FLevelDBStorageEngine V :=
  { e with trackedQueriesDB := e.trackedQueriesDB.setData query (trackedQueryKey query.queryId) }

def removeTrackedQuery (e : FLevelDBStorageEngine V) (queryId : ℕ) : FLevelDBStorageEngine V :=
  { e with trackedQueriesDB := e.trackedQueriesDB.removeKey (trackedQueryKey queryId) }

def loadTrackedQueries (e : FLevelDBStorageEngine V) : List FTrackedQuery :=
  (PrefixRange.range kFTrackedQueriesPrefix e.trackedQueriesDB.entries).map Prod.snd

def pruneCache (scmp : ChildKey → ChildKey → Ordering) (e : FLevelDBStorageEngine V)
    (pruneForest : FPruneForest ChildKey) (path : List ChildKey) : FLevelDBStorageEngine V :=
  let prefixString := serverCacheKey path
  let batch := (e.serverCacheDB.enumerateKeysWithPrefix prefixString).filterMap fun dbKey =>
    let relativePath := FPath.pathWithString (dbKey.drop prefixString.length)
    if relativePath.any (pruneForest.shouldPruneUnkeptDescendantsAtPath scmp) then
      some (.remove dbKey)
    else none
  { e with serverCacheDB := e.serverCacheDB.commitWriteBatch batch }

end FLevelDBStorageEngine

/-- How many of the queries that are not active are kept, and the part that is pruned at once. When
the cache is looked at, and when it is too large, is left out. -/
structure FCachePolicy where
  percentOfQueriesToPruneAtOnce : Float32
  maxNumberOfQueriesToKeep : ℕ
  percent_mem : percentOfQueriesToPruneAtOnce.value ∈ Set.Icc 0 (1 / 2)

def kFMaxNumberOfPrunableQueriesToKeep : ℕ := 1000

def kFPercentOfQueriesToPruneAtOnce : Float32 := .ofCGFloat (1 / 5)

def FLRUCachePolicy : FCachePolicy where
  percentOfQueriesToPruneAtOnce := kFPercentOfQueriesToPruneAtOnce
  maxNumberOfQueriesToKeep := kFMaxNumberOfPrunableQueriesToKeep
  percent_mem := by
    have hle := Lib.Rounding.round_le 24 (by norm_num : (0 : ℚ) ≤ 1 / 5)
    exact ⟨Lib.Rounding.round_nonneg 24 (by norm_num), hle.trans (by norm_num)⟩

def NSUIntegerMax : ℕ := 2 ^ 64 - 1

def FNoCachePolicy : FCachePolicy where
  percentOfQueriesToPruneAtOnce := 0
  maxNumberOfQueriesToKeep := NSUIntegerMax
  percent_mem := by
    have hzero : (0 : Float32).value = 0 := Lib.Rounding.round_of_representable
      (Nat.cast_zero (R := ℚ) ▸ Lib.Rounding.representable_zero 24)
    rw [hzero]
    norm_num

/-- The manager with its engine and its `FTrackedQueryManager`, which share the engine. At a path
there is the query that is tracked, or none any more. The children of the tree are in an order of
their own, which is that of texts; it also ties keys that are canonically equivalent texts. -/
structure FPersistenceManager (V : Type) (scmp : ChildKey → ChildKey → Ordering) where
  storageEngine : FLevelDBStorageEngine V
  trackedQueryTree : FImmutableTree ChildKey (Option FTrackedQuery)
  currentQueryId : ℕ

/-- What a query is answered from the cache. -/
structure FCacheNode (V : Type) where
  node : FNode ChildKey V
  isFullyInitialized : Bool
  isFiltered : Bool

namespace FTrackedQueryManager

variable {V : Type} {scmp : ChildKey → ChildKey → Ordering}

def findTrackedQuery (m : FPersistenceManager V scmp) (path : List ChildKey) :
    Option FTrackedQuery :=
  (m.trackedQueryTree.valueAtPath scmp path).join

def cacheTrackedQuery (m : FPersistenceManager V scmp) (query : FTrackedQuery) :
    FPersistenceManager V scmp :=
  { m with
    trackedQueryTree :=
      m.trackedQueryTree.setValue scmp (some (some query)) query.path }

/-- `saveTrackedQuery:` and `cacheTrackedQuery:`. -/
def track (m : FPersistenceManager V scmp) (query : FTrackedQuery) : FPersistenceManager V scmp :=
  cacheTrackedQuery { m with storageEngine := m.storageEngine.saveTrackedQuery query } query

def removeTrackedQuery (m : FPersistenceManager V scmp) (query : FTrackedQuery) :
    Option (FPersistenceManager V scmp) :=
  (findTrackedQuery m query.path).map fun trackedQuery =>
    { m with
      storageEngine := m.storageEngine.removeTrackedQuery trackedQuery.queryId
      trackedQueryTree :=
        m.trackedQueryTree.setValue scmp (some none) query.path }

def setQueryActive (m : FPersistenceManager V scmp) (isActive : Bool) (path : List ChildKey)
    (lastUse : ℕ) : Option (FPersistenceManager V scmp) :=
  match findTrackedQuery m path with
  | some trackedQuery =>
    some (track m ((trackedQuery.updateLastUse lastUse).setActiveState isActive))
  | none =>
    if isActive then
      some (track { m with currentQueryId := m.currentQueryId + 1 }
        ⟨m.currentQueryId, path, lastUse, isActive, false⟩)
    else none

/-- A query that was seen by `setQueriesCompleteAtPath:`. -/
def complete (m : FPersistenceManager V scmp) (seen : List ChildKey × Option FTrackedQuery) :
    FPersistenceManager V scmp :=
  match seen.2 with
  | none => m
  | some trackedQuery => if trackedQuery.isComplete then m else track m trackedQuery.setComplete

def setQueriesCompleteAtPath (m : FPersistenceManager V scmp) (path : List ChildKey) :
    FPersistenceManager V scmp :=
  (m.trackedQueryTree.subtreeAtPath scmp path).forEach.foldl complete m

def hasActiveDefaultQueryAtPath (m : FPersistenceManager V scmp) (path : List ChildKey) : Bool :=
  (m.trackedQueryTree.rootMostValueOnPath scmp
    (·.any FTrackedQuery.isActive) path).isSome

def isIncludedInDefaultCompleteQuery (m : FPersistenceManager V scmp) (path : List ChildKey) :
    Bool :=
  (m.trackedQueryTree.findRootMostMatchingPath scmp
    (·.any FTrackedQuery.isComplete) path).isSome

def ensureCompleteTrackedQueryAtPath (m : FPersistenceManager V scmp) (path : List ChildKey)
    (lastUse : ℕ) : Option (FPersistenceManager V scmp) :=
  if isIncludedInDefaultCompleteQuery m path then some m
  else match findTrackedQuery m path with
    | none =>
      some (track { m with currentQueryId := m.currentQueryId + 1 }
        ⟨m.currentQueryId, path, lastUse, false, true⟩)
    | some trackedQuery =>
      if trackedQuery.isComplete then none else some (track m trackedQuery.setComplete)

def numberOfQueriesToPrune (cachePolicy : FCachePolicy) (numPrunable : ℕ) : ℕ :=
  let numPercent :=
    (Float32.mul (.ofCGFloat numPrunable) cachePolicy.percentOfQueriesToPruneAtOnce).ceilf
  let maxToKeep := cachePolicy.maxNumberOfQueriesToKeep
  let numMax := if numPrunable > maxToKeep then numPrunable - maxToKeep else 0
  max numMax numPercent

def trackedQueries (m : FPersistenceManager V scmp) : List FTrackedQuery :=
  m.trackedQueryTree.forEach.filterMap Prod.snd

/-- None where there are not as many queries, or a path is pruned that was kept. -/
def pruneOldQueries (m : FPersistenceManager V scmp) (cachePolicy : FCachePolicy) :
    Option (FPruneForest ChildKey × FPersistenceManager V scmp) :=
  let pruneableQueries := ((trackedQueries m).filter (!·.isActive)).insertionSort
    fun q1 q2 => q1.lastUse ≤ q2.lastUse
  let unpruneableQueries := (trackedQueries m).filter (·.isActive)
  let numToPrune := numberOfQueriesToPrune cachePolicy pruneableQueries.length
  let toPrune := pruneableQueries.take numToPrune
  let toKeep := pruneableQueries.drop numToPrune ++ unpruneableQueries
  if pruneableQueries.length < numToPrune then none
  else
    ((toPrune.map FTrackedQuery.path).foldlM (FPruneForest.prunePath scmp) .empty).bind
      fun pruneForest => (toPrune.foldlM removeTrackedQuery m).map fun m =>
        ((toKeep.map FTrackedQuery.path).foldl (FPruneForest.keepPath scmp) pruneForest,
          m)

def knownCompleteChildrenAtPath (m : FPersistenceManager V scmp) (path : List ChildKey) :
    List ChildKey :=
  (m.trackedQueryTree.subtreeAtPath scmp path).children.filterMap fun child =>
    if child.2.value.join.any FTrackedQuery.isComplete then some child.1 else none

/-- A query as it is after the app was started again. -/
def restarted (lastUse : ℕ) (query : FTrackedQuery) : FTrackedQuery :=
  if query.isActive then (query.setActiveState false).updateLastUse lastUse else query

/-- A query that `initWithStorageEngine:` loads. -/
def load (lastUse : ℕ) (m : FPersistenceManager V scmp) (query : FTrackedQuery) :
    FPersistenceManager V scmp :=
  let m := { m with currentQueryId := max (query.queryId + 1) m.currentQueryId }
  if query.isActive then track m (restarted lastUse query) else cacheTrackedQuery m query

variable (scmp) in
def initWithStorageEngine (storageEngine : FLevelDBStorageEngine V) (lastUse : ℕ) :
    FPersistenceManager V scmp :=
  storageEngine.loadTrackedQueries.foldl (load lastUse) ⟨storageEngine, .empty, 0⟩

end FTrackedQueryManager

namespace FPersistenceManager

open FTrackedQueryManager FLevelDBStorageEngine

variable {V : Type} {scmp : ChildKey → ChildKey → Ordering}

def serverCacheForQuery (m : FPersistenceManager V scmp) (path : List ChildKey) :
    Option (FCacheNode V) :=
  if isIncludedInDefaultCompleteQuery m path then
    (m.storageEngine.serverCacheAtPath path).map fun node => ⟨node, true, false⟩
  else
    let trackedKeys := knownCompleteChildrenAtPath m path
    (m.storageEngine.serverCacheForKeys trackedKeys path).map fun node => ⟨node, false, true⟩

/-- What is left out is the check of the cache's size. -/
def updateServerCacheWithNode (m : FPersistenceManager V scmp) (node : FNode ChildKey V)
    (path : List ChildKey) : FPersistenceManager V scmp :=
  let storageEngine := m.storageEngine.updateServerCache node path false
  setQueriesCompleteAtPath { m with storageEngine := storageEngine } path

def applyUserWrite (m : FPersistenceManager V scmp) (write : FNode ChildKey V)
    (path : List ChildKey) (lastUse : ℕ) : Option (FPersistenceManager V scmp) :=
  if hasActiveDefaultQueryAtPath m path then some m
  else
    let storageEngine := m.storageEngine.updateServerCache write path false
    ensureCompleteTrackedQueryAtPath { m with storageEngine := storageEngine } path lastUse

/-- One turn of the loop in `doPruneCheckAfterServerUpdate`. -/
def prune (m : FPersistenceManager V scmp) (cachePolicy : FCachePolicy) :
    Option (FPersistenceManager V scmp) :=
  (pruneOldQueries m cachePolicy).map fun r =>
    if r.1.prunesAnything then
      { r.2 with storageEngine := r.2.storageEngine.pruneCache scmp r.1 [] }
    else r.2

/-- What the manager is called for. -/
inductive Call (V : Type)
  | updateServerCache (placed : Placed V)
  | applyUserWrite (placed : Placed V) (lastUse : ℕ)
  | setQueryActive (isActive : Bool) (path : List ChildKey) (lastUse : ℕ)
  | prune (cachePolicy : FCachePolicy)
  | restart (lastUse : ℕ)

def call (m : FPersistenceManager V scmp) : Call V → Option (FPersistenceManager V scmp)
  | .updateServerCache u => some (m.updateServerCacheWithNode u.node u.path)
  | .applyUserWrite u lastUse => m.applyUserWrite u.node u.path lastUse
  | .setQueryActive isActive path lastUse => setQueryActive m isActive path lastUse
  | .prune cachePolicy => m.prune cachePolicy
  | .restart lastUse => some (initWithStorageEngine scmp m.storageEngine lastUse)

/-- The update of the cache that a call makes. -/
def saved (m : FPersistenceManager V scmp) : Call V → List (Update V)
  | .updateServerCache u => [⟨u, false⟩]
  | .applyUserWrite u _ => if hasActiveDefaultQueryAtPath m u.path then [] else [⟨u, false⟩]
  | .setQueryActive _ _ _ => []
  | .prune _ => []
  | .restart _ => []

/-- A call, and the updates of the cache so far. -/
def step (s : FPersistenceManager V scmp × List (Update V)) (c : Call V) :
    Option (FPersistenceManager V scmp × List (Update V)) :=
  (s.1.call c).map fun m => (m, s.2 ++ s.1.saved c)

variable (scmp) in
def init : FPersistenceManager V scmp := ⟨FLevelDBStorageEngine.empty, .empty, 0⟩

end FPersistenceManager

/-! ### The tracked queries and their store -/

namespace FTrackedQueryManager

open FLevelDBStorageEngine

variable {V : Type} {scmp : ChildKey → ChildKey → Ordering} {m : FPersistenceManager V scmp}
variable {p q : List ChildKey} {query : FTrackedQuery} {names : Set ChildKey}

/-- The record of a query in the store. -/
def stored (m : FPersistenceManager V scmp) (queryId : ℕ) : Option FTrackedQuery :=
  m.storageEngine.trackedQueriesDB.dataForKey (trackedQueryKey queryId)

/-- Every record is under the key of its id. -/
def Keyed (e : FLevelDBStorageEngine V) : Prop :=
  ∀ entry ∈ e.trackedQueriesDB.entries, entry.1 = trackedQueryKey entry.2.queryId

/-- **The queries that are tracked** are each found under its path, whose keys are among the
names, and under those that tie with it, have ids of their own, and are the ones that are
stored. -/
structure Tracks (names : Set ChildKey) (m : FPersistenceManager V scmp) : Prop where
  ordered : Ordered scmp names m.trackedQueryTree
  path : ∀ p query, findTrackedQuery m p = some query → Tied scmp p query.path
  named : ∀ p query, findTrackedQuery m p = some query → ∀ k ∈ query.path, k ∈ names
  fresh : ∀ p query, findTrackedQuery m p = some query → query.queryId < m.currentQueryId
  unique : ∀ p p' query query', findTrackedQuery m p = some query →
    findTrackedQuery m p' = some query' → query.queryId = query'.queryId → Tied scmp p p'
  keyed : Keyed m.storageEngine
  stored : ∀ query, stored m query.queryId = some query ↔
    findTrackedQuery m query.path = some query

/-- What is in the cache makes no difference. -/
lemma Tracks.of_cache (hm : Tracks names m) {e : FLevelDBStorageEngine V}
    (he : e.trackedQueriesDB = m.storageEngine.trackedQueriesDB) :
    Tracks names ({ m with storageEngine := e } : FPersistenceManager V scmp) where
  ordered := hm.ordered
  path := hm.path
  named := hm.named
  fresh := hm.fresh
  unique := hm.unique
  keyed entry hentry := by
    dsimp only at hentry
    rw [he] at hentry
    exact hm.keyed entry hentry
  stored query := by
    rw [FTrackedQueryManager.stored]
    dsimp only
    rw [he]
    exact hm.stored query

lemma trackedQueryKey_inj {i j : ℕ} : trackedQueryKey i = trackedQueryKey j ↔ i = j := by
  constructor
  · intro h
    have hname : (ChildKey.ofIndex i).name = (ChildKey.ofIndex j).name := List.append_cancel_left h
    exact ChildKey.ofIndex_injective (ChildKey.name_injective hname)
  · rintro rfl
    rfl

variable [Std.TransCmp scmp]

lemma find_congr (h : Tied scmp q p) : findTrackedQuery m q = findTrackedQuery m p := by
  rw [findTrackedQuery, valueAtPath_congr _ h, findTrackedQuery]

/-- Under its own path a query is found too. -/
lemma Tracks.find_path (hm : Tracks names m) (h : findTrackedQuery m p = some query) :
    findTrackedQuery m query.path = some query := by
  rw [← find_congr (hm.path p query h), h]

lemma find_cacheTrackedQuery (m : FPersistenceManager V scmp) (query : FTrackedQuery)
    (p : List ChildKey) : findTrackedQuery (cacheTrackedQuery m query) p =
      if Tied scmp p query.path then some query else findTrackedQuery m p := by
  rw [findTrackedQuery, cacheTrackedQuery, valueAtPath_setValue]
  split <;> rfl

lemma find_track (m : FPersistenceManager V scmp) (query : FTrackedQuery) (p : List ChildKey) :
    findTrackedQuery (track m query) p =
      if Tied scmp p query.path then some query else findTrackedQuery m p :=
  find_cacheTrackedQuery _ query p

/-- What is found is the tracked query at its path, or was there before. -/
lemma eq_or_find_of_track {query' : FTrackedQuery}
    (h : findTrackedQuery (track m query) p = some query') :
    Tied scmp p query.path ∧ query' = query ∨ findTrackedQuery m p = some query' := by
  rw [find_track] at h
  split at h
  · rename_i hp
    exact .inl ⟨hp, (Option.some.inj h).symm⟩
  · exact .inr h

omit [Std.TransCmp scmp] in
lemma stored_track (m : FPersistenceManager V scmp) (query : FTrackedQuery) (queryId : ℕ) :
    stored (track m query) queryId =
      if queryId = query.queryId then some query else stored m queryId := by
  have hwrite := APLevelDB.dataForKey_write m.storageEngine.trackedQueriesDB
    (.set (trackedQueryKey query.queryId) query) (trackedQueryKey queryId)
  refine hwrite.trans ?_
  simp only [APLevelDB.Write.key, APLevelDB.Write.data, trackedQueryKey_inj]
  rfl

lemma Keyed.saveTrackedQuery {e : FLevelDBStorageEngine V} (h : Keyed e) (query : FTrackedQuery) :
    Keyed (e.saveTrackedQuery query) := by
  intro entry hentry
  rcases SortedList.mem_insert hentry with rfl | hentry
  · rfl
  · exact h entry hentry

/-- A query of its own, or one in place of that at its path. -/
structure Fits (names : Set ChildKey) (m : FPersistenceManager V scmp) (query : FTrackedQuery) :
    Prop where
  named : ∀ k ∈ query.path, k ∈ names
  fresh : query.queryId < m.currentQueryId
  same : ∀ p query', findTrackedQuery m p = some query' →
    (query'.queryId = query.queryId ↔ Tied scmp p query.path)

/-- **Tracking a query** that fits. -/
lemma Tracks.track (hm : Tracks names m) (hquery : Fits names m query) :
    Tracks names (FTrackedQueryManager.track m query) := by
  constructor
  · exact hm.ordered.setValue _ hquery.named
  · intro p query' h
    rcases eq_or_find_of_track h with ⟨hp, rfl⟩ | h
    · exact hp
    · exact hm.path p query' h
  · intro p query' h
    rcases eq_or_find_of_track h with ⟨-, rfl⟩ | h
    · exact hquery.named
    · exact hm.named p query' h
  · intro p query' h
    rcases eq_or_find_of_track h with ⟨-, rfl⟩ | h
    · exact hquery.fresh
    · exact hm.fresh p query' h
  · intro p p' query₁ query₂ h₁ h₂ hid
    rcases eq_or_find_of_track h₁ with ⟨hp, hq⟩ | hfind₁ <;>
      rcases eq_or_find_of_track h₂ with ⟨hp', hq'⟩ | hfind₂
    · exact hp.trans hp'.symm
    · exact hp.trans ((hquery.same p' query₂ hfind₂).mp (by rw [← hid, hq])).symm
    · exact ((hquery.same p query₁ hfind₁).mp (by rw [hid, hq'])).trans hp'.symm
    · exact hm.unique p p' query₁ query₂ hfind₁ hfind₂ hid
  · exact hm.keyed.saveTrackedQuery query
  · intro query'
    rw [stored_track, find_track]
    have hstored := hm.stored query'
    have hsame := hquery.same query'.path query'
    split <;> split
    · rfl
    · rename_i hid hp
      constructor
      · intro h
        cases h
        exact absurd (tied_refl _) hp
      · exact fun h => absurd ((hsame h).mp hid) hp
    · rename_i hid hp
      constructor
      · exact fun h => absurd ((hsame (hstored.mp h)).mpr hp) hid
      · intro h
        cases h
        exact absurd rfl hid
    · exact hstored

/-- **Removing a query**. -/
lemma Tracks.exists_removeTrackedQuery (hm : Tracks names m)
    (hquery : findTrackedQuery m query.path = some query) :
    ∃ m', removeTrackedQuery m query = some m' ∧ Tracks names m' ∧
      m'.storageEngine.serverCacheDB = m.storageEngine.serverCacheDB ∧
      ∀ p, findTrackedQuery m' p =
        if Tied scmp p query.path then none else findTrackedQuery m p := by
  rw [removeTrackedQuery, hquery, Option.map_some]
  set m' : FPersistenceManager V scmp :=
    { m with
      storageEngine := m.storageEngine.removeTrackedQuery query.queryId
      trackedQueryTree :=
        m.trackedQueryTree.setValue scmp (some none) query.path } with hm'
  have hfind : ∀ p, findTrackedQuery m' p =
      if Tied scmp p query.path then none else findTrackedQuery m p := by
    intro p
    rw [findTrackedQuery, hm', valueAtPath_setValue]
    split <;> rfl
  have hsub : ∀ p query', findTrackedQuery m' p = some query' →
      findTrackedQuery m p = some query' := by
    intro p query' h
    rw [hfind] at h
    split at h
    · cases h
    · exact h
  have hremoved : ∀ queryId, FTrackedQueryManager.stored m' queryId =
      if queryId = query.queryId then none else FTrackedQueryManager.stored m queryId := by
    intro queryId
    have hwrite := APLevelDB.dataForKey_write m.storageEngine.trackedQueriesDB
      (.remove (trackedQueryKey query.queryId)) (trackedQueryKey queryId)
    refine hwrite.trans ?_
    simp only [APLevelDB.Write.key, APLevelDB.Write.data, trackedQueryKey_inj]
    rfl
  refine ⟨m', rfl, ⟨hm.ordered.setValue _ (hm.named _ _ hquery), ?_, ?_, ?_, ?_, ?_, ?_⟩, rfl,
    hfind⟩
  · exact fun p query' h => hm.path p query' (hsub p query' h)
  · exact fun p query' h => hm.named p query' (hsub p query' h)
  · exact fun p query' h => hm.fresh p query' (hsub p query' h)
  · exact fun p p' q q' h h' => hm.unique p p' q q' (hsub p q h) (hsub p' q' h')
  · exact fun entry hentry => hm.keyed entry (SortedList.mem_of_mem_erase hentry)
  · intro query'
    rw [hremoved, hfind]
    have hstored := hm.stored query'
    split <;> split
    · rfl
    · rename_i hid hp
      constructor
      · intro h
        cases h
      · exact fun h => absurd (hm.unique _ _ _ _ h hquery hid) hp
    · rename_i hid hp
      constructor
      · intro h
        have hfound := hstored.mp h
        rw [find_congr hp, hquery] at hfound
        cases hfound
        exact absurd rfl hid
      · intro h
        cases h
    · exact hstored

/-- A query takes the place of the one at its path. -/
lemma Tracks.fits (hm : Tracks names m) {old : FTrackedQuery}
    (hold : findTrackedQuery m query.path = some old) (hid : query.queryId = old.queryId)
    (hpath : query.path = old.path) : Fits names m query where
  named := by
    rw [hpath]
    exact hm.named _ _ hold
  fresh := by
    rw [hid]
    exact hm.fresh _ _ hold
  same p query' h := by
    rw [hid]
    constructor
    · exact hm.unique _ _ _ _ h hold
    · intro hp
      rw [find_congr hp, hold] at h
      rw [Option.some.inj h]

/-- A query with the next id. -/
lemma Tracks.track_next (hm : Tracks names m) (hnamed : ∀ k ∈ query.path, k ∈ names)
    (hp : findTrackedQuery m query.path = none) (hid : query.queryId = m.currentQueryId) :
    Tracks names (FTrackedQueryManager.track
      ({ m with currentQueryId := m.currentQueryId + 1 } : FPersistenceManager V scmp) query) := by
  have hm' : Tracks names
      ({ m with currentQueryId := m.currentQueryId + 1 } : FPersistenceManager V scmp) := by
    refine ⟨hm.ordered, hm.path, hm.named, fun p query h => ?_, hm.unique, hm.keyed, hm.stored⟩
    exact (hm.fresh p query h).trans (Nat.lt_succ_self _)
  refine hm'.track ⟨hnamed, by rw [hid]; exact Nat.lt_succ_self _, fun p query' h => ?_⟩
  have hold : findTrackedQuery m p = some query' := h
  have hlt := hm.fresh p query' hold
  constructor
  · intro heq
    omega
  · intro htied
    rw [find_congr htied, hp] at hold
    cases hold

/-! ### Completing queries -/

/-- Nothing changed but that queries at and below a path are complete. -/
structure Completed (names : Set ChildKey) (m m' : FPersistenceManager V scmp)
    (path : List ChildKey) : Prop where
  tracks : Tracks names m'
  cache : m'.storageEngine.serverCacheDB = m.storageEngine.serverCacheDB
  find : ∀ p, findTrackedQuery m' p = findTrackedQuery m p ∨
    TiedPrefix scmp path p ∧
      findTrackedQuery m' p = (findTrackedQuery m p).map FTrackedQuery.setComplete

lemma completed_foldl (hm : Tracks names m) {path : List ChildKey}
    {seen : List (List ChildKey × Option FTrackedQuery)}
    (hseen : ∀ e ∈ seen, ∀ query, e.2 = some query →
      findTrackedQuery m query.path = some query ∧ TiedPrefix scmp path query.path) :
    Completed names m (seen.foldl complete m) path := by
  induction seen using List.reverseRecOn with
  | nil => exact ⟨hm, rfl, fun p => .inl rfl⟩
  | append_singleton seen e ih =>
    have hrest := ih fun f hf => hseen f (by simp [hf])
    rw [List.foldl_append, List.foldl_cons, List.foldl_nil]
    generalize seen.foldl complete m = m' at hrest
    obtain ⟨r, seen⟩ := e
    cases seen with
    | none => exact hrest
    | some query =>
      obtain ⟨hquery, hpath⟩ := hseen (r, some query) (by simp) query rfl
      rw [complete]
      dsimp only
      split
      · exact hrest
      · have hfound : ∃ old, findTrackedQuery m' query.path = some old ∧
            query.queryId = old.queryId ∧ query.path = old.path := by
          rcases hrest.find query.path with h | ⟨-, h⟩
          · exact ⟨query, h.trans hquery, rfl, rfl⟩
          · rw [hquery] at h
            exact ⟨_, h, rfl, rfl⟩
        obtain ⟨old, hold, hid, hsame⟩ := hfound
        refine ⟨hrest.tracks.track (hrest.tracks.fits hold hid hsame), hrest.cache, fun p => ?_⟩
        rw [find_track]
        split
        · rename_i hp
          have hp' : Tied scmp p query.path := hp
          rw [find_congr hp', hquery]
          exact .inr ⟨hpath.of_tied hp', rfl⟩
        · exact hrest.find p

/-- **The queries at and below a path** are completed. -/
lemma completed_setQueriesComplete (hm : Tracks names m) (path : List ChildKey) :
    Completed names m (setQueriesCompleteAtPath m path) path := by
  refine completed_foldl hm ?_
  rintro ⟨r, _⟩ hmem query rfl
  have hvalue := (mem_forEach (hm.ordered.subtreeAtPath path) r _).mp ⟨r, tied_refl r, hmem⟩
  rw [valueAtPath_subtreeAtPath] at hvalue
  have hfind : findTrackedQuery m (path ++ r) = some query := by
    rw [findTrackedQuery, hvalue]
    rfl
  exact ⟨hm.find_path hfind, (tiedPrefix_of_begins (List.prefix_append path r)).of_tied
    (hm.path _ _ hfind).symm⟩

end FTrackedQueryManager

end Solta
