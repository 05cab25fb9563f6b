import Solta.Lib.PrefixRange
import Solta.Lib.Overwrite
import Solta.Lib.Pieces
import Solta.Database.Json

/-!
What is kept on the device.

The server's data is kept in a sorted store under the paths of its leaves, written out as keys. An
update is a batch: the leaves above its path and those below it go, and those of the new node
come. Data is read in one walk over the keys from a path on. Merges of compound writes, which
the app does not make, are left out.
-/

namespace Solta

open Lib SortedList Overwrite

/-! ### The sorted store -/

/-- Keys are in the order of their bytes, which is that of their characters. -/
structure APLevelDB (W : Type) where
  entries : List (Text × W)
  sorted : Sorted compare entries

namespace APLevelDB

variable {W : Type}

def setData (db : APLevelDB W) (data : W) (key : Text) : APLevelDB W where
  entries := SortedList.insert compare key data db.entries
  sorted := sorted_insert db.sorted key data

def removeKey (db : APLevelDB W) (key : Text) : APLevelDB W where
  entries := erase compare key db.entries
  sorted := sorted_erase db.sorted key

def dataForKey (db : APLevelDB W) (key : Text) : Option W := find compare key db.entries

def enumerateKeysWithPrefix (db : APLevelDB W) (prefixString : Text) : List Text :=
  (PrefixRange.range prefixString db.entries).map Prod.fst

/-- One operation of a write batch. -/
inductive Write (W : Type)
  | set (key : Text) (data : W)
  | remove (key : Text)

def write (db : APLevelDB W) : Write W → APLevelDB W
  | .set key data => db.setData data key
  | .remove key => db.removeKey key

def commitWriteBatch (db : APLevelDB W) (theBatch : List (Write W)) : APLevelDB W :=
  theBatch.foldl write db

end APLevelDB

/-! ### The server's data -/

/-- The pieces of a path, each after a slash. -/
def FPath.toStringWithTrailingSlash (pieces : List Text) : Text :=
  let pathString := pieces.flatMap fun piece => '/' :: piece
  if pathString = [] then ['/'] else pathString ++ ['/']

/-- `initWith:`, none where a piece is not a key; of the keys that the app can make these are the
negative zeros, of which the source makes paths too. -/
def FPath.pathWithString (path : Text) : Option (List ChildKey) :=
  (pieces '/' path).mapM ChildKey.ofText

/-- A query for all data at a path, and what is known of it. -/
structure FTrackedQuery where
  queryId : ℕ
  path : List ChildKey
  lastUse : ℕ
  isActive : Bool
  isComplete : Bool

/-- The tracked queries, which the source keeps among the server's data under keys of their own,
have a store of their own. The store of the app's writes is modelled apart. -/
structure FLevelDBStorageEngine (V : Type) where
  serverCacheDB : APLevelDB (Json V)
  trackedQueriesDB : APLevelDB FTrackedQuery

namespace FLevelDBStorageEngine

open APLevelDB FSnapshotUtilities

variable {V : Type}

def kFServerCachePrefix : Text := "/server_cache/".toList

def serverCacheKey (path : List ChildKey) : Text :=
  kFServerCachePrefix ++ FPath.toStringWithTrailingSlash (path.map ChildKey.name)

/-- The path itself and the paths above it, up to the root. -/
def removeAllLeafNodesOnPath (path : List ChildKey) : List (Write (Json V)) :=
  path.inits.reverse.map fun p => .remove (serverCacheKey p)

def removeAllWithPrefix (prefixString : Text) (database : APLevelDB (Json V)) :
    List (Write (Json V)) :=
  (database.enumerateKeysWithPrefix prefixString).map .remove

mutual

def internalSetNestedData : Json V → Text → List (Write (Json V))
  | .dictionary dictionary, key => setNestedEntries dictionary key
  | value, key => [.set key value]

def setNestedEntries : List (Text × Json V) → Text → List (Write (Json V))
  | [], _ => []
  | (childKey, obj) :: dictionary, key =>
    internalSetNestedData obj (key ++ childKey ++ ['/']) ++ setNestedEntries dictionary key

end

def saveNodeInternal (node : FNode ChildKey V) (path : List ChildKey) : List (Write (Json V)) :=
  match node.valForExport true with
  | .null => []
  | data => internalSetNestedData data (serverCacheKey path)

/-- What `enumerateChildrenUsingBlock:` goes through. -/
def childrenOf : FNode ChildKey V → List (ChildKey × FNode ChildKey V)
  | .leaf _ => []
  | .children cs => cs

/-- What is there goes, and the leaves of a node come. -/
def replaceNode (e : FLevelDBStorageEngine V) (node : FNode ChildKey V) (path : List ChildKey) :
    List (Write (Json V)) :=
  removeAllWithPrefix (serverCacheKey path) e.serverCacheDB ++ saveNodeInternal node path

def updateServerCache (e : FLevelDBStorageEngine V) (node : FNode ChildKey V)
    (path : List ChildKey) (merge : Bool) : FLevelDBStorageEngine V :=
  let batch := removeAllLeafNodesOnPath path ++
    if merge then (childrenOf node).flatMap fun child =>
      e.replaceNode child.2 (path ++ [child.1])
    else e.replaceNode node path
  { e with serverCacheDB := e.serverCacheDB.commitWriteBatch batch }

/-- `setValue:forKey:` of a dictionary. -/
def setValue (dict : List (Text × Json V)) (childValue : Json V) (childName : Text) :
    List (Text × Json V) :=
  (dict.filter fun e => e.1 ≠ childName) ++ [(childName, childValue)]

mutual

/-- The value, and the entries the walk has not come to; none where the walk does not end. -/
def internalNestedDataFromIterator :
    ℕ → List (Text × Json V) → Text → Option (Json V × List (Text × Json V))
  | 0, _, _ => none
  | _ + 1, [], _ => some (.dictionary [], [])
  | fuel + 1, (key, value) :: iterator, prefixString =>
    if key = prefixString then some (value, iterator)
    else nestedLoop fuel ((key, value) :: iterator) prefixString []

/-- The loop over the children. -/
def nestedLoop : ℕ → List (Text × Json V) → Text → List (Text × Json V) →
    Option (Json V × List (Text × Json V))
  | 0, _, _, _ => none
  | _ + 1, [], _, dict => some (.dictionary dict, [])
  | fuel + 1, (key, value) :: iterator, prefixString, dict =>
    if prefixString <+: key then
      let relativePath := key.drop prefixString.length
      let childName := (relativePath.splitOn '/').headD []
      (internalNestedDataFromIterator fuel ((key, value) :: iterator)
          (prefixString ++ childName ++ ['/'])).bind fun r =>
        nestedLoop fuel r.2 prefixString (setValue dict r.1 childName)
    else some (.dictionary dict, (key, value) :: iterator)

end

/-- Steps in which a walk ends, if it does. -/
def steps (es : List (Text × Json V)) : ℕ := (es.map fun e => 2 * e.1.length + 1).sum + 2

/-- Nothing where there is no data. -/
def internalNestedDataForPath (e : FLevelDBStorageEngine V) (path : List ChildKey) :
    Option (Option (Json V)) :=
  let baseKey := serverCacheKey path
  match PrefixRange.seek baseKey e.serverCacheDB.entries with
  | [] => some none
  | (key, value) :: iter =>
    if baseKey <+: key then
      (internalNestedDataFromIterator (steps e.serverCacheDB.entries) ((key, value) :: iter)
        baseKey).map fun r => some r.1
    else some none

def serverCacheAtPath (e : FLevelDBStorageEngine V) (path : List ChildKey) :
    Option (FNode ChildKey V) :=
  (e.internalNestedDataForPath path).bind fun data => nodeFrom (data.getD .null) 0

def serverCacheForKeys (e : FLevelDBStorageEngine V) (keys : List ChildKey)
    (path : List ChildKey) : Option (FNode ChildKey V) :=
  keys.foldlM (fun node key => (e.serverCacheAtPath (path ++ [key])).map fun child =>
    node.updateImmediateChild ChildKey.compare key child) FNode.emptyNode

end FLevelDBStorageEngine

/-! ### What a batch does -/

namespace APLevelDB

def Write.key {W : Type} : Write W → Text
  | .set key _ => key
  | .remove key => key

def Write.data {W : Type} : Write W → Option W
  | .set _ data => some data
  | .remove _ => none

variable {W : Type} {db : APLevelDB W} {key : Text} {w : Write W} {b : List (Write W)}

lemma dataForKey_write (db : APLevelDB W) (w : Write W) (key : Text) :
    (db.write w).dataForKey key = if key = w.key then w.data else db.dataForKey key := by
  cases w with
  | set k d => exact find_insert k key d db.entries
  | remove k => exact find_erase db.sorted k key

lemma commit_append (db : APLevelDB W) (b c : List (Write W)) :
    db.commitWriteBatch (b ++ c) = (db.commitWriteBatch b).commitWriteBatch c :=
  List.foldl_append

/-- A key that no operation is about. -/
lemma dataForKey_commit_of_ne (h : ∀ w ∈ b, w.key ≠ key) :
    (db.commitWriteBatch b).dataForKey key = db.dataForKey key := by
  induction b generalizing db with
  | nil => rfl
  | cons w b ih =>
    have hb : ((db.write w).commitWriteBatch b).dataForKey key = (db.write w).dataForKey key :=
      ih fun v hv => h v (by simp [hv])
    refine hb.trans ?_
    rw [dataForKey_write, if_neg (Ne.symm (h w (by simp)))]

/-- A key that all operations that are about it write alike. -/
lemma dataForKey_commit_of_mem (hw : w ∈ b) (h : ∀ v ∈ b, v.key = w.key → v.data = w.data) :
    (db.commitWriteBatch b).dataForKey w.key = w.data := by
  induction b using List.reverseRecOn with
  | nil => cases hw
  | append_singleton b v ih =>
    rw [commit_append]
    refine (dataForKey_write _ v _).trans ?_
    split
    · rename_i hkey
      exact h v (by simp) hkey.symm
    · rename_i hne
      refine ih ?_ fun u hu => h u (by simp [hu])
      rcases List.mem_append.mp hw with hw | hw
      · exact hw
      · rw [List.mem_singleton.mp hw] at hne
        exact absurd rfl hne

/-- A batch that only removes. -/
lemma dataForKey_removed (h : ∀ w ∈ b, w.data = none) :
    (db.commitWriteBatch b).dataForKey key = none ∨
      (∀ w ∈ b, w.key ≠ key) ∧ (db.commitWriteBatch b).dataForKey key = db.dataForKey key := by
  by_cases hex : ∃ w ∈ b, w.key = key
  · obtain ⟨w, hw, rfl⟩ := hex
    refine .inl ?_
    rw [dataForKey_commit_of_mem hw fun v hv _ => by rw [h v hv, h w hw], h w hw]
  · have hne : ∀ w ∈ b, w.key ≠ key := fun w hw hkey => hex ⟨w, hw, hkey⟩
    exact .inr ⟨hne, dataForKey_commit_of_ne hne⟩

/-- What is there after a batch was there before, or was set. -/
lemma dataForKey_commit_ne_none (h : (db.commitWriteBatch b).dataForKey key ≠ none) :
    db.dataForKey key ≠ none ∨ ∃ d, .set key d ∈ b := by
  induction b using List.reverseRecOn with
  | nil => exact .inl h
  | append_singleton b w ih =>
    have hwrite := dataForKey_write (db.commitWriteBatch b) w key
    rw [commit_append] at h
    by_cases hkey : key = w.key
    · cases w with
      | set k d =>
        have hset : key = k := hkey
        exact .inr ⟨d, by simp [hset]⟩
      | remove k =>
        rw [if_pos hkey] at hwrite
        exact absurd hwrite h
    · rw [if_neg hkey] at hwrite
      rcases ih (hwrite ▸ h) with hold | ⟨d, hd⟩
      · exact .inl hold
      · exact .inr ⟨d, List.mem_append_left _ hd⟩

lemma dataForKey_eq_some_iff {d : W} : db.dataForKey key = some d ↔ (key, d) ∈ db.entries :=
  find_eq_some_iff db.sorted

lemma mem_enumerateKeysWithPrefix {prefixString : Text} :
    key ∈ db.enumerateKeysWithPrefix prefixString ↔
      prefixString <+: key ∧ db.dataForKey key ≠ none := by
  rw [enumerateKeysWithPrefix, PrefixRange.range_eq db.sorted, List.mem_map]
  constructor
  · rintro ⟨⟨k, d⟩, hmem, rfl⟩
    obtain ⟨hmem, hpre⟩ := List.mem_filter.mp hmem
    refine ⟨of_decide_eq_true hpre, ?_⟩
    rw [dataForKey_eq_some_iff.mpr hmem]
    simp
  · rintro ⟨hpre, hdata⟩
    obtain ⟨d, hd⟩ := Option.ne_none_iff_exists'.mp hdata
    exact ⟨(key, d), List.mem_filter.mpr ⟨dataForKey_eq_some_iff.mp hd, decide_eq_true hpre⟩, rfl⟩

end APLevelDB

namespace FLevelDBStorageEngine

open APLevelDB

variable {V : Type} {p q r : List ChildKey} {k : ChildKey}

/-! ### Paths as keys -/

/-- The pieces of a path, each before a slash. -/
def pathKey (path : List ChildKey) : Text := path.flatMap fun k => k.name ++ ['/']

lemma pathKey_append (p q : List ChildKey) : pathKey (p ++ q) = pathKey p ++ pathKey q :=
  List.flatMap_append

lemma pathKey_cons (k : ChildKey) (p : List ChildKey) :
    pathKey (k :: p) = k.name ++ '/' :: pathKey p := by
  simp [pathKey]

lemma toStringWithTrailingSlash_eq (path : List ChildKey) :
    FPath.toStringWithTrailingSlash (path.map ChildKey.name) = '/' :: pathKey path := by
  have hslash : ∀ path : List ChildKey,
      (path.map ChildKey.name).flatMap (fun piece => '/' :: piece) ++ ['/'] =
        '/' :: pathKey path := by
    intro path
    induction path with
    | nil => rfl
    | cons k path ih =>
      rw [List.map_cons, List.flatMap_cons, List.append_assoc, ih, pathKey_cons]
      rfl
  rw [FPath.toStringWithTrailingSlash]
  split
  · rename_i hnil
    rw [← hslash, hnil]
    rfl
  · exact hslash path

lemma serverCacheKey_eq (path : List ChildKey) :
    serverCacheKey path = kFServerCachePrefix ++ '/' :: pathKey path := by
  rw [serverCacheKey, toStringWithTrailingSlash_eq]

lemma serverCacheKey_append (p q : List ChildKey) :
    serverCacheKey (p ++ q) = serverCacheKey p ++ pathKey q := by
  rw [serverCacheKey_eq, serverCacheKey_eq, pathKey_append, List.append_assoc]
  rfl

/-- Words that end at their first slash. -/
lemma prefix_slash {a b s t : Text} (ha : '/' ∉ a) (hb : '/' ∉ b) :
    a ++ '/' :: s <+: b ++ '/' :: t ↔ a = b ∧ s <+: t := by
  induction a generalizing b with
  | nil =>
    cases b with
    | nil => simp [List.cons_prefix_cons]
    | cons d b =>
      have hd : '/' ≠ d := fun h => hb (h ▸ List.mem_cons_self)
      simp [List.cons_prefix_cons, hd]
  | cons c a ih =>
    cases b with
    | nil =>
      have hc : c ≠ '/' := fun h => ha (h ▸ List.mem_cons_self)
      simp [List.cons_prefix_cons, hc]
    | cons d b =>
      rw [List.cons_append, List.cons_append, List.cons_prefix_cons,
        ih (fun h => ha (by simp [h])) fun h => hb (by simp [h])]
      simp [and_assoc]

lemma slash_notMem_name (k : ChildKey) : '/' ∉ k.name := FValidation.slash_notMem_of_key k.2

/-- **Keys begin with each other** as their paths do. -/
lemma pathKey_begins : pathKey p <+: pathKey q ↔ p <+: q := by
  induction p generalizing q with
  | nil => simp [pathKey]
  | cons k p ih =>
    cases q with
    | nil => simp [pathKey]
    | cons j q =>
      rw [pathKey_cons, pathKey_cons, prefix_slash (slash_notMem_name k) (slash_notMem_name j), ih,
        List.cons_prefix_cons, ChildKey.name_injective.eq_iff]

lemma serverCacheKey_begins : serverCacheKey p <+: serverCacheKey q ↔ p <+: q := by
  rw [serverCacheKey_eq, serverCacheKey_eq, List.prefix_append_right_inj, List.cons_prefix_cons,
    pathKey_begins]
  simp

lemma serverCacheKey_inj : serverCacheKey p = serverCacheKey q ↔ p = q := by
  constructor
  · intro h
    have hp : p <+: q := serverCacheKey_begins.mp (h ▸ List.prefix_refl _)
    have hq : q <+: p := serverCacheKey_begins.mp (h ▸ List.prefix_refl _)
    exact hp.eq_of_length_le hq.length_le
  · rintro rfl
    rfl

lemma pieces_pathKey (path : List ChildKey) :
    pieces '/' (pathKey path) = path.map ChildKey.name := by
  induction path with
  | nil => rfl
  | cons k path ih =>
    have hne : k.name ≠ [] := (FValidation.isValidKey_iff.mp k.2).1
    rw [pathKey_cons, Pieces.pieces_append, Pieces.pieces_eq_singleton (slash_notMem_name k) hne,
      ih]
    rfl

/-- A path is read back from its pieces. -/
lemma pathWithString_pathKey (path : List ChildKey) :
    FPath.pathWithString (pathKey path) = some path := by
  rw [FPath.pathWithString, pieces_pathKey]
  induction path with
  | nil => rfl
  | cons k path ih => rw [List.map_cons, List.mapM_cons, ChildKey.ofText_name, ih]; rfl

/-! ### What is kept -/

/-- No leaf is below another. -/
def Lone (f : Leaves ChildKey V) : Prop :=
  ∀ q r v w, f q = some v → f (q ++ r) = some w → r = []

/-- The store holds the leaves of a tree, each under its path. -/
structure Stored (e : FLevelDBStorageEngine V) (f : Leaves ChildKey V) : Prop where
  data : ∀ q, e.serverCacheDB.dataForKey (serverCacheKey q) = (f q).map .leaf
  keys : ∀ entry ∈ e.serverCacheDB.entries, serverCacheKey [] <+: entry.1 →
    ∃ q, entry.1 = serverCacheKey q
  lone : Lone f

/-- What is set for a node: its leaves, each under its path. -/
def SetsLeaves (n : FNode ChildKey V) : Prop :=
  ∀ (p : List ChildKey) (w : Write (Json V)),
    w ∈ internalSetNestedData (n.valForExport true) (serverCacheKey p) ↔
      ∃ r v, n.valueAt ChildKey.compare r = some v ∧
        w = .set (serverCacheKey (p ++ r)) (.leaf v)

lemma serverCacheKey_child (p : List ChildKey) (k : ChildKey) :
    serverCacheKey p ++ k.name ++ ['/'] = serverCacheKey (p ++ [k]) := by
  rw [serverCacheKey_append, pathKey_cons, List.append_assoc]
  rfl

lemma mem_setNestedEntries {cs : List (ChildKey × FNode ChildKey V)}
    (hcs : ∀ e ∈ cs, SetsLeaves e.2) (p : List ChildKey) (w : Write (Json V)) :
    w ∈ setNestedEntries (FNode.valsForExport true cs) (serverCacheKey p) ↔
      ∃ e ∈ cs, ∃ r v, e.2.valueAt ChildKey.compare r = some v ∧
        w = .set (serverCacheKey (p ++ e.1 :: r)) (.leaf v) := by
  induction cs with
  | nil => simp [FNode.valsForExport, setNestedEntries]
  | cons e cs ih =>
    obtain ⟨k, n⟩ := e
    rw [FNode.valsForExport, setNestedEntries, List.mem_append, serverCacheKey_child,
      hcs (k, n) (by simp) (p ++ [k]) w, ih fun f hf => hcs f (by simp [hf])]
    simp

lemma setsLeaves {n : FNode ChildKey V} (hn : n.Canonical ChildKey.compare)
    (hne : n.isEmpty = false) : SetsLeaves n := by
  induction hn with
  | leaf v =>
    intro p w
    rw [FNode.valForExport, internalSetNestedData, List.mem_singleton]
    · constructor
      · rintro rfl
        exact ⟨[], v, rfl, by rw [List.append_nil]⟩
      · rintro ⟨r, v', hv, rfl⟩
        cases r with
        | nil =>
          cases hv
          rw [List.append_nil]
        | cons k r =>
          rw [FNode.valueAt_cons, FNode.getImmediateChild, FNode.valueAt_emptyNode] at hv
          cases hv
    · intro dictionary h
      cases h
  | @children cs hs _ hnonempty ih =>
    intro p w
    cases cs with
    | nil => cases hne
    | cons e cs =>
      have hdictionary : (FNode.children (e :: cs)).valForExport true =
          .dictionary (FNode.valsForExport true (e :: cs)) := by
        rw [FNode.valForExport, FNode.arrange]
        rfl
      rw [hdictionary, internalSetNestedData,
        mem_setNestedEntries fun f hf => ih f hf (hnonempty f hf)]
      constructor
      · rintro ⟨f, hf, r, v, hv, rfl⟩
        refine ⟨f.1 :: r, v, ?_, rfl⟩
        rw [FNode.valueAt_cons, FNode.getImmediateChild, (find_eq_some_iff hs).mpr hf]
        exact hv
      · rintro ⟨r, v, hv, rfl⟩
        cases r with
        | nil => cases hv
        | cons k r =>
          rw [FNode.valueAt_cons, FNode.getImmediateChild] at hv
          cases hfind : find ChildKey.compare k (e :: cs) with
          | none =>
            rw [hfind, Option.getD_none, FNode.valueAt_emptyNode] at hv
            cases hv
          | some m =>
            rw [hfind] at hv
            exact ⟨(k, m), (find_eq_some_iff hs).mp hfind, r, v, hv, rfl⟩

lemma mem_saveNodeInternal {n : FNode ChildKey V} (hn : n.Canonical ChildKey.compare)
    (p : List ChildKey) (w : Write (Json V)) : w ∈ saveNodeInternal n p ↔
      ∃ r v, n.valueAt ChildKey.compare r = some v ∧
        w = .set (serverCacheKey (p ++ r)) (.leaf v) := by
  cases hempty : n.isEmpty
  · rw [← setsLeaves hn hempty p w]
    cases n with
    | leaf v => rfl
    | children cs =>
      cases cs with
      | nil => cases hempty
      | cons e cs => rfl
  · rw [FNode.eq_emptyNode hempty]
    have hnil : saveNodeInternal (FNode.emptyNode : FNode ChildKey V) p = [] := rfl
    simp [hnil]

variable {e : FLevelDBStorageEngine V} {f : Leaves ChildKey V} {path : List ChildKey}

/-- A replacement is about keys below its path. -/
lemma prefix_of_mem_replaceNode {n : FNode ChildKey V} (hn : n.Canonical ChildKey.compare)
    {w : Write (Json V)} (hw : w ∈ e.replaceNode n p) : serverCacheKey p <+: w.key := by
  rcases List.mem_append.mp hw with hw | hw
  · obtain ⟨key, hkey, rfl⟩ := List.mem_map.mp hw
    exact (mem_enumerateKeysWithPrefix.mp hkey).1
  · obtain ⟨r, v, -, rfl⟩ := (mem_saveNodeInternal hn p w).mp hw
    exact serverCacheKey_begins.mpr (List.prefix_append p r)

/-- **What a replacement leaves** below its path, where the store did not get more keys since. -/
lemma dataForKey_replaceNode {n : FNode ChildKey V}
    (hn : n.Canonical ChildKey.compare) {db : APLevelDB (Json V)} (r : List ChildKey)
    (hdb : db.dataForKey (serverCacheKey (p ++ r)) = none ∨
      db.dataForKey (serverCacheKey (p ++ r)) =
        e.serverCacheDB.dataForKey (serverCacheKey (p ++ r))) :
    (db.commitWriteBatch (e.replaceNode n p)).dataForKey (serverCacheKey (p ++ r)) =
      (n.valueAt ChildKey.compare r).map .leaf := by
  have hsame : ∀ w ∈ saveNodeInternal n p, w.key = serverCacheKey (p ++ r) →
      w.data = (n.valueAt ChildKey.compare r).map .leaf := by
    intro w hw hkey
    obtain ⟨r', v, hv, rfl⟩ := (mem_saveNodeInternal hn p w).mp hw
    obtain rfl := List.append_cancel_left (serverCacheKey_inj.mp hkey)
    rw [hv]
    rfl
  rw [replaceNode, commit_append]
  cases hv : n.valueAt ChildKey.compare r with
  | some v =>
    have hmem := (mem_saveNodeInternal hn p _).mpr ⟨r, v, hv, rfl⟩
    refine (dataForKey_commit_of_mem hmem fun w hw hkey => ?_)
    rw [hsame w hw hkey, hv]
    rfl
  | none =>
    have hne : ∀ w ∈ saveNodeInternal n p, w.key ≠ serverCacheKey (p ++ r) := by
      intro w hw hkey
      obtain ⟨r', v, hv', rfl⟩ := (mem_saveNodeInternal hn p w).mp hw
      obtain rfl := List.append_cancel_left (serverCacheKey_inj.mp hkey)
      rw [hv] at hv'
      cases hv'
    rw [dataForKey_commit_of_ne hne, Option.map_none]
    have hremoves : ∀ w ∈ removeAllWithPrefix (serverCacheKey p) e.serverCacheDB,
        w.data = none := by
      intro w hw
      obtain ⟨key, -, rfl⟩ := List.mem_map.mp hw
      rfl
    have hremoved : (db.commitWriteBatch (removeAllWithPrefix (serverCacheKey p)
        e.serverCacheDB)).dataForKey (serverCacheKey (p ++ r)) = none ∨ _ :=
      dataForKey_removed hremoves
    rcases hremoved with h | ⟨h, hdata⟩
    · exact h
    · rw [hdata]
      rcases hdb with hdb | hdb
      · exact hdb
      · rw [hdb]
        by_contra hold
        refine h (.remove (serverCacheKey (p ++ r))) (List.mem_map_of_mem ?_) rfl
        exact mem_enumerateKeysWithPrefix.mpr
          ⟨serverCacheKey_begins.mpr (List.prefix_append p r), hold⟩

/-! ### What an update leaves -/

lemma lone_clear (hf : Lone f) (p : List ChildKey) : Lone (clear f p) := by
  intro q r v w hv hw
  unfold clear at hv hw
  split at hv
  · cases hv
  · split at hw
    · cases hw
    · exact hf q r v w hv hw

lemma lone_put {m : Leaves ChildKey V} (hf : Lone f) (hm : Lone m) (p : List ChildKey) :
    Lone (put f p m) := by
  intro q r v w hv hw
  rcases below_or_above_or_apart p q with ⟨s, rfl⟩ | ⟨hpre, hne⟩ | hapart
  · rw [put_append] at hv
    rw [List.append_assoc, put_append] at hw
    exact hm s r v w hv hw
  · rw [put_above hpre hne] at hv
    cases hv
  · rw [put_apart hapart] at hv
    rw [put_apart (hapart.extend (List.prefix_refl p) (List.prefix_append q r))] at hw
    exact hf q r v w hv hw

lemma lone_valueAt (n : FNode ChildKey V) : Lone (n.valueAt ChildKey.compare) := by
  intro q r v w hv hw
  cases r with
  | nil => rfl
  | cons k r =>
    rw [FNode.valueAt, FNode.getChild_append] at hw
    rw [FNode.valueAt] at hv
    cases hn : n.getChild ChildKey.compare q with
    | leaf u =>
      rw [hn, FNode.getChild_cons, FNode.getImmediateChild, FNode.getChild_emptyNode] at hw
      cases hw
    | children cs =>
      rw [hn] at hv
      cases hv

/-- The nodes that an update saves, under their paths. -/
def targets (node : FNode ChildKey V) (path : List ChildKey) (merge : Bool) :
    List (List ChildKey × FNode ChildKey V) :=
  if merge then (childrenOf node).map fun child => (path ++ [child.1], child.2)
  else [(path, node)]

/-- **What an update does**: the leaves above its path go, and each node it saves is written over
what was there. -/
def updated (f : Leaves ChildKey V) (node : FNode ChildKey V) (path : List ChildKey)
    (merge : Bool) : Leaves ChildKey V :=
  puts (clear f path)
    ((targets node path merge).map fun w => (w.1, w.2.valueAt ChildKey.compare))

lemma updateServerCache_eq (e : FLevelDBStorageEngine V) (node : FNode ChildKey V)
    (path : List ChildKey) (merge : Bool) :
    (e.updateServerCache node path merge).serverCacheDB =
      (e.serverCacheDB.commitWriteBatch (removeAllLeafNodesOnPath path)).commitWriteBatch
        ((targets node path merge).flatMap fun w => e.replaceNode w.2 w.1) := by
  rw [← commit_append, targets]
  cases merge
  · simp [updateServerCache]
  · simp [updateServerCache, List.flatMap_map]

lemma targets_canonical {node : FNode ChildKey V} (hn : node.Canonical ChildKey.compare)
    {merge : Bool} {w : List ChildKey × FNode ChildKey V} (hw : w ∈ targets node path merge) :
    w.2.Canonical ChildKey.compare := by
  cases merge
  · rw [List.mem_singleton.mp hw]
    exact hn
  · obtain ⟨c, hc, rfl⟩ := List.mem_map.mp hw
    cases hn with
    | leaf v => cases hc
    | children _ hcanonical _ => exact hcanonical c hc

/-- The paths above a node that an update saves are the path of the update and those above it. -/
lemma prefix_of_targets {node : FNode ChildKey V} {merge : Bool}
    {w : List ChildKey × FNode ChildKey V} (hw : w ∈ targets node path merge) (hq : q <+: w.1)
    (hne : q ≠ w.1) : q <+: path := by
  cases merge
  · rw [List.mem_singleton.mp hw] at hq
    exact hq
  · obtain ⟨c, -, rfl⟩ := List.mem_map.mp hw
    rcases List.prefix_concat_iff.mp hq with rfl | hq
    · exact absurd rfl hne
    · exact hq

lemma targets_apart {node : FNode ChildKey V} (hn : node.Canonical ChildKey.compare)
    (path : List ChildKey) (merge : Bool) :
    (targets node path merge).Pairwise fun v w => Apart v.1 w.1 := by
  cases merge
  · exact List.pairwise_singleton _ _
  · cases hn with
    | leaf v => exact List.Pairwise.nil
    | @children cs hs _ _ =>
      refine List.Pairwise.map _ (fun a b hab => ?_) hs
      have hne : a.1 ≠ b.1 := fun heq => by
        have hself : ChildKey.compare b.1 b.1 = .eq := Std.ReflCmp.compare_self
        rw [heq, hself] at hab
        cases hab
      constructor
      · rw [List.prefix_append_right_inj, List.cons_prefix_cons]
        exact fun h => hne h.1
      · rw [List.prefix_append_right_inj, List.cons_prefix_cons]
        exact fun h => hne h.1.symm

/-- Above the path of an update there is nothing. -/
lemma puts_clear_above {ws : List (List ChildKey × Leaves ChildKey V)}
    (hnot : ∀ w ∈ ws, ¬ w.1 <+: q) (hq : q <+: path) : puts (clear f path) ws q = none := by
  by_cases h : ∃ w ∈ ws, q <+: w.1
  · exact puts_above hnot h
  · rw [puts_of_apart fun w hw => ⟨hnot w hw, fun hpre => h ⟨w, hw, hpre⟩⟩, clear, if_pos hq]

lemma removed_on_path (he : Stored e f) (q : List ChildKey) :
    (e.serverCacheDB.commitWriteBatch (removeAllLeafNodesOnPath path)).dataForKey
      (serverCacheKey q) = (clear f path q).map .leaf := by
  unfold clear
  split
  · rename_i hq
    have hmem : Write.remove (serverCacheKey q) ∈
        (removeAllLeafNodesOnPath path : List (Write (Json V))) :=
      List.mem_map_of_mem (List.mem_reverse.mpr ((List.mem_inits q path).mpr hq))
    refine dataForKey_commit_of_mem hmem fun w hw _ => ?_
    obtain ⟨p, -, rfl⟩ := List.mem_map.mp hw
    rfl
  · rename_i hq
    rw [dataForKey_commit_of_ne, he.data]
    intro w hw hkey
    obtain ⟨p, hp, rfl⟩ := List.mem_map.mp hw
    rw [serverCacheKey_inj.mp hkey] at hp
    exact hq ((List.mem_inits q path).mp (List.mem_reverse.mp hp))

/-- **The store after an update** of some nodes that are apart. -/
lemma dataForKey_saved (he : Stored e f) {ws : List (List ChildKey × FNode ChildKey V)}
    (hcanonical : ∀ w ∈ ws, w.2.Canonical ChildKey.compare)
    (habove : ∀ w ∈ ws, ∀ q, q <+: w.1 → q ≠ w.1 → q <+: path)
    (hapart : ws.Pairwise fun v w => Apart v.1 w.1) (q : List ChildKey) :
    ((e.serverCacheDB.commitWriteBatch (removeAllLeafNodesOnPath path)).commitWriteBatch
        (ws.flatMap fun w => e.replaceNode w.2 w.1)).dataForKey (serverCacheKey q) =
      (puts (clear f path) (ws.map fun w => (w.1, w.2.valueAt ChildKey.compare)) q).map
        .leaf := by
  induction ws using List.reverseRecOn generalizing q with
  | nil => exact removed_on_path he q
  | append_singleton ws w ih =>
    obtain ⟨hws, -, hw⟩ := List.pairwise_append.mp hapart
    have hrest := ih (fun v hv => hcanonical v (by simp [hv]))
      (fun v hv => habove v (by simp [hv])) hws
    have hwapart : ∀ v ∈ ws.map fun w => (w.1, w.2.valueAt ChildKey.compare),
        Apart v.1 w.1 := by
      intro v hv
      obtain ⟨u, hu, rfl⟩ := List.mem_map.mp hv
      exact hw u hu w (by simp)
    rw [List.flatMap_append, List.flatMap_singleton, commit_append, List.map_append,
      List.map_singleton, puts_snoc]
    rcases below_or_above_or_apart w.1 q with ⟨r, rfl⟩ | ⟨hpre, hne⟩ | hq
    · rw [put_append]
      refine dataForKey_replaceNode (hcanonical w (by simp)) r ?_
      have hunder : ∀ v ∈ ws.map fun w => (w.1, w.2.valueAt ChildKey.compare),
          Apart v.1 (w.1 ++ r) := fun v hv =>
        (hwapart v hv).extend (List.prefix_refl _) (List.prefix_append _ r)
      rw [hrest, puts_of_apart hunder, he.data, clear]
      split
      · exact .inl rfl
      · exact .inr rfl
    · have hnot : ∀ v ∈ ws.map fun w => (w.1, w.2.valueAt ChildKey.compare), ¬ v.1 <+: q :=
        fun v hv h => (hwapart v hv).1 (h.trans hpre)
      have hnone := puts_clear_above (f := f) hnot (habove w (by simp) q hpre hne)
      rw [put_above hpre hne, dataForKey_commit_of_ne, hrest, hnone]
      intro v hv hkey
      have hpre' := prefix_of_mem_replaceNode (hcanonical w (by simp)) hv
      rw [hkey, serverCacheKey_begins] at hpre'
      exact hne (hpre.eq_of_length_le hpre'.length_le)
    · rw [put_apart hq, dataForKey_commit_of_ne, hrest]
      intro v hv hkey
      have hpre := prefix_of_mem_replaceNode (hcanonical w (by simp)) hv
      rw [hkey, serverCacheKey_begins] at hpre
      exact hq.1 hpre

lemma lone_puts {ws : List (List ChildKey × Leaves ChildKey V)} (hf : Lone f)
    (hws : ∀ w ∈ ws, Lone w.2) : Lone (puts f ws) := by
  induction ws generalizing f with
  | nil => exact hf
  | cons w ws ih => exact ih (lone_put hf (hws w (by simp)) w.1) fun v hv => hws v (by simp [hv])

/-- **An update keeps the store**: it holds what the update does to the tree. -/
lemma Stored.updateServerCache (he : Stored e f) {node : FNode ChildKey V}
    (hn : node.Canonical ChildKey.compare) (path : List ChildKey) (merge : Bool) :
    Stored (e.updateServerCache node path merge) (updated f node path merge) := by
  have hcanonical := fun w (hw : w ∈ targets node path merge) => targets_canonical hn hw
  constructor
  · intro q
    rw [updateServerCache_eq]
    exact dataForKey_saved he hcanonical (fun w hw q => prefix_of_targets hw)
      (targets_apart hn path merge) q
  · rintro ⟨key, d⟩ hentry hpre
    have hdata := dataForKey_eq_some_iff.mpr hentry
    rw [updateServerCache_eq, ← commit_append] at hdata
    rcases dataForKey_commit_ne_none (by rw [hdata]; simp) with hold | ⟨d', hset⟩
    · obtain ⟨d', hd'⟩ := Option.ne_none_iff_exists'.mp hold
      exact he.keys (key, d') (dataForKey_eq_some_iff.mp hd') hpre
    · rcases List.mem_append.mp hset with hset | hset
      · obtain ⟨p, -, hp⟩ := List.mem_map.mp hset
        cases hp
      · obtain ⟨w, hw, hset⟩ := List.mem_flatMap.mp hset
        rcases List.mem_append.mp hset with hset | hset
        · obtain ⟨k, -, hk⟩ := List.mem_map.mp hset
          cases hk
        · obtain ⟨r, v, -, hkey⟩ := (mem_saveNodeInternal (hcanonical w hw) w.1 _).mp hset
          cases hkey
          exact ⟨w.1 ++ r, rfl⟩
  · refine lone_puts (lone_clear he.lone path) fun w hw => ?_
    obtain ⟨v, -, rfl⟩ := List.mem_map.mp hw
    exact lone_valueAt v.2

end FLevelDBStorageEngine

end Solta
