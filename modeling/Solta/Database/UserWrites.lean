import Solta.Database.Repo
import Solta.Database.CacheWalk

/-!
The writes of the app across restarts.

A write is kept on the device from when it is made until its completion block is called, under its
id in decimal digits, whose order is not that of the ids. When the app is started again the writes
are read, put in the order of their ids, made pending and put to the server again. Values that
the server fills in, which the app does not write, and merges are left out.
-/

namespace Solta

open Lib Overwrite Run FCompoundWrite FWriteTree FSnapshotUtilities FLevelDBStorageEngine

/-- The dictionary that is stored for a write. -/
structure UserWrite (V : Type) where
  writeId : ℕ
  path : Text
  overwrite : Json V

namespace FLevelDBStorageEngine

variable {V : Type}

def writeRecordKey (writeId : ℕ) : Text := ChildKey.number writeId

def saveUserOverwrite (writesDB : APLevelDB (UserWrite V)) (node : FNode ChildKey V)
    (path : List ChildKey) (writeId : ℕ) : APLevelDB (UserWrite V) :=
  writesDB.setData ⟨writeId, FPath.toStringWithTrailingSlash (path.map ChildKey.name),
    node.valForExport true⟩ (writeRecordKey writeId)

def removeUserWrite (writesDB : APLevelDB (UserWrite V)) (writeId : ℕ) :
    APLevelDB (UserWrite V) :=
  writesDB.removeKey (writeRecordKey writeId)

def writeRecord (writeJSON : UserWrite V) : Option (FWriteRecord ChildKey V) :=
  (FPath.pathWithString writeJSON.path).bind fun path =>
    (nodeFrom writeJSON.overwrite 0).map fun node => ⟨writeJSON.writeId, path, node, true⟩

def userWrites (writesDB : APLevelDB (UserWrite V)) : Option (List (FWriteRecord ChildKey V)) :=
  (writesDB.entries.mapM fun entry => writeRecord entry.2).map fun writes =>
    writes.insertionSort fun one two => one.writeId ≤ two.writeId

end FLevelDBStorageEngine

/-- What the app's writes go through: the store on the device, the pending writes, the next id,
and what the connection was given to put since the app was started. -/
structure Writes (V : Type) where
  writesDB : APLevelDB (UserWrite V)
  pendingWriteTree : FWriteTree ChildKey V
  writeIdCounter : ℕ
  connection : List (FPut ChildKey V)

namespace Writes

variable {V : Type} (scmp : ChildKey → ChildKey → Ordering)

def set (w : Writes V) (path : List ChildKey) (node : FNode ChildKey V) : Option (Writes V) :=
  let writeId := w.writeIdCounter
  (addOverwriteAtPath ChildKey.compare scmp w.pendingWriteTree path node writeId true).map fun t =>
    ⟨saveUserOverwrite w.writesDB node path writeId, t, writeId + 1,
      w.connection ++ [⟨path, node, writeId⟩]⟩

def ackUserWriteWithWriteId (w : Writes V) (writeId : ℕ) : Option (Writes V) :=
  let write := w.pendingWriteTree.allWrites.find? fun record => record.writeId = (writeId : ℤ)
  (removeWriteId ChildKey.compare scmp w.pendingWriteTree writeId).map fun (_, t) =>
    { w with
      writesDB := if write.any FWriteRecord.visible then removeUserWrite w.writesDB writeId
        else w.writesDB
      pendingWriteTree := t }

def NSIntegerMin : ℤ := -2 ^ 63

/-- One write of those restored, after the one with the last id. -/
def restoreWrite (s : ℤ × Writes V) (write : FWriteRecord ChildKey V) : Option (ℤ × Writes V) :=
  let (lastWriteId, w) := s
  if lastWriteId ≥ write.writeId then none
  else
    (addOverwriteAtPath ChildKey.compare scmp w.pendingWriteTree write.path write.overwrite
      write.writeId true).map fun t => (write.writeId,
        { w with
          writeIdCounter := write.writeId.toNat + 1
          connection := w.connection ++ [⟨write.path, write.overwrite, write.writeId⟩]
          pendingWriteTree := t })

/-- The app is started with what is on the device. -/
def restoreWrites (writesDB : APLevelDB (UserWrite V)) : Option (Writes V) :=
  (userWrites writesDB).bind fun writes =>
    (writes.foldlM (restoreWrite scmp) (NSIntegerMin, ⟨writesDB, .init, 0, []⟩)).map Prod.snd

inductive Event (V : Type)
  | set (placed : Placed V)
  | ackWrite (writeId : ℕ)
  | restart

def step (w : Writes V) : Event V → Option (Writes V)
  | .set u => w.set scmp u.path u.node
  | .ackWrite writeId => w.ackUserWriteWithWriteId scmp writeId
  | .restart => restoreWrites scmp w.writesDB

def init : Writes V := ⟨⟨[], List.Pairwise.nil⟩, .init, 0, []⟩

/-! ### The store and the pending writes -/

/-- What is stored for a pending write. -/
def userWrite (r : FWriteRecord ChildKey V) : UserWrite V :=
  ⟨r.writeId.toNat, FPath.toStringWithTrailingSlash (r.path.map ChildKey.name),
    r.overwrite.valForExport true⟩

/-- What is put for a pending write. -/
def put (r : FWriteRecord ChildKey V) : FPut ChildKey V := ⟨r.path, r.overwrite, r.writeId⟩

/-- A pending write that can be read back. -/
structure Storable (r : FWriteRecord ChildKey V) : Prop where
  nonneg : 0 ≤ r.writeId
  visible : r.visible = true
  canonical : r.overwrite.Canonical ChildKey.compare
  shallow : r.overwrite.height ≤ kFirebaseMaxObjectDepth

/-- **The invariant**: the writes that are stored are those that are pending, in the order of
their ids, all below the next one. -/
structure Saved (w : Writes V) : Prop where
  storable : ∀ r ∈ w.pendingWriteTree.allWrites, Storable r
  inOrder : w.pendingWriteTree.allWrites.Pairwise fun r s => r.writeId < s.writeId
  fresh : Fresh w.pendingWriteTree w.writeIdCounter
  stored : ∀ key d, w.writesDB.dataForKey key = some d ↔
    ∃ r ∈ w.pendingWriteTree.allWrites, key = writeRecordKey r.writeId.toNat ∧ d = userWrite r

variable {scmp} {w w' : Writes V} {r : FWriteRecord ChildKey V}

lemma writeRecordKey_inj {i j : ℕ} : writeRecordKey i = writeRecordKey j ↔ i = j := by
  constructor
  · intro h
    exact ChildKey.ofIndex_injective (ChildKey.name_injective h)
  · rintro rfl
    rfl

/-- A pending write is read back from what is stored for it. -/
lemma Storable.writeRecord (hr : Storable r) :
    FLevelDBStorageEngine.writeRecord (userWrite r) = some r := by
  have hpath : FPath.pathWithString (userWrite r).path = some r.path := by
    have hslash : pieces '/' ('/' :: pathKey r.path) = pieces '/' (pathKey r.path) :=
      Pieces.pieces_append [] _
    rw [userWrite, toStringWithTrailingSlash_eq, FPath.pathWithString, hslash]
    exact pathWithString_pathKey r.path
  have hnode : nodeFrom (userWrite r).overwrite 0 = some r.overwrite :=
    nodeFrom_valForExport hr.canonical true (by rw [Nat.zero_add]; exact hr.shallow)
  have hid : ((userWrite r).writeId : ℤ) = r.writeId := Int.toNat_of_nonneg hr.nonneg
  rw [FLevelDBStorageEngine.writeRecord, hpath, Option.bind_some, hnode, Option.map_some, hid,
    ← hr.visible]

lemma saved_init : Saved (init : Writes V) where
  storable r hr := absurd hr List.not_mem_nil
  inOrder := List.Pairwise.nil
  fresh := fresh_init
  stored key d := by
    constructor
    · intro h
      cases h
    · rintro ⟨r, hr, -⟩
      cases hr

variable (scmp) in
/-- **A write that is made** is stored. -/
lemma Saved.exists_set (hw : Saved w) (u : Placed V) :
    ∃ w', w.set scmp u.path u.node = some w' ∧ Saved w' := by
  set record : FWriteRecord ChildKey V := ⟨w.writeIdCounter, u.path, u.node, true⟩ with hrecord
  have hstack := hw.fresh.addOverwriteAtPath ChildKey.compare scmp u.path u.node true
  refine ⟨_, by rw [Writes.set, hstack, Option.map_some], ?_⟩
  have hall : (w.pendingWriteTree.stack ChildKey.compare scmp record).allWrites =
      w.pendingWriteTree.allWrites ++ [record] := rfl
  constructor
  · dsimp only
    rw [← hrecord, hall]
    intro r hr
    rcases List.mem_append.mp hr with hr | hr
    · exact hw.storable r hr
    · rw [List.mem_singleton.mp hr]
      exact ⟨Int.natCast_nonneg _, rfl, u.canonical, (Nat.le_add_left _ _).trans u.shallow⟩
  · dsimp only
    rw [← hrecord, hall, List.pairwise_append]
    refine ⟨hw.inOrder, List.pairwise_singleton _ _, fun r hr s hs => ?_⟩
    rw [List.mem_singleton.mp hs]
    exact hw.fresh.pending r hr
  · have hfresh : Fresh w.pendingWriteTree record.writeId := hw.fresh
    exact hfresh.stack
  · intro key d
    have hwrite := APLevelDB.dataForKey_write w.writesDB
      (.set (writeRecordKey w.writeIdCounter)
        (userWrite ⟨w.writeIdCounter, u.path, u.node, true⟩)) key
    have hdata : (saveUserOverwrite w.writesDB u.node u.path w.writeIdCounter).dataForKey key =
        if key = writeRecordKey w.writeIdCounter then
          some (userWrite ⟨w.writeIdCounter, u.path, u.node, true⟩)
        else w.writesDB.dataForKey key := hwrite
    dsimp only
    rw [hdata, ← hrecord, hall]
    split
    · rename_i hkey
      constructor
      · intro h
        exact ⟨_, List.mem_append_right _ (List.mem_singleton_self _), hkey,
          (Option.some.inj h).symm⟩
      · rintro ⟨r, hr, hkey', rfl⟩
        rcases List.mem_append.mp hr with hr | hr
        · have hid := writeRecordKey_inj.mp (hkey.symm.trans hkey')
          have hlt := hw.fresh.pending r hr
          have hnonneg := (hw.storable r hr).nonneg
          omega
        · rw [List.mem_singleton.mp hr]
    · rename_i hkey
      rw [hw.stored]
      constructor
      · rintro ⟨r, hr, h⟩
        exact ⟨r, List.mem_append_left _ hr, h⟩
      · rintro ⟨r, hr, hkey', h⟩
        rcases List.mem_append.mp hr with hr | hr
        · exact ⟨r, hr, hkey', h⟩
        · rw [List.mem_singleton.mp hr] at hkey'
          exact absurd hkey' hkey

/-- **A write that is acknowledged** is stored no more. -/
lemma Saved.ack (hw : Saved w) {writeId : ℕ}
    (h : w.ackUserWriteWithWriteId scmp writeId = some w') : Saved w' := by
  rw [ackUserWriteWithWriteId] at h
  obtain ⟨res, hres, rfl⟩ := Option.map_eq_some_iff.mp h
  obtain ⟨pre, r, post, hall, hid, hpre, hrest, -⟩ := removeWriteId_cases hres
  have hmem : ∀ s ∈ pre ++ post, s ∈ w.pendingWriteTree.allWrites := by
    intro s hs
    rw [hall]
    rcases List.mem_append.mp hs with hs | hs <;> simp [hs]
  have hr : r ∈ w.pendingWriteTree.allWrites := by
    rw [hall]
    simp
  have hfind : (w.pendingWriteTree.allWrites.find? fun s => s.writeId = (writeId : ℤ)) =
      some r := by
    have hnone : (pre.find? fun s => s.writeId = (writeId : ℤ)) = none :=
      List.find?_eq_none.mpr fun s hs => by simpa using hpre s hs
    rw [hall, List.find?_append, hnone, Option.none_or, List.find?_cons_of_pos (by simpa using hid)]
  have hother : ∀ s ∈ pre ++ post, s.writeId ≠ r.writeId := by
    have hinOrder := hw.inOrder
    rw [hall, List.pairwise_append, List.pairwise_cons] at hinOrder
    obtain ⟨-, ⟨hpost, -⟩, hpre'⟩ := hinOrder
    intro s hs
    rcases List.mem_append.mp hs with hs | hs
    · exact (hpre' s hs r (by simp)).ne
    · exact (hpost s hs).ne'
  have hsub : (pre ++ post).Sublist w.pendingWriteTree.allWrites := by
    rw [hall]
    exact (List.sublist_cons_self r post).append_left pre
  have hkeyOf : ∀ s ∈ w.pendingWriteTree.allWrites,
      (writeRecordKey s.writeId.toNat = writeRecordKey writeId ↔ s.writeId = r.writeId) := by
    intro s hs
    have hnonneg := (hw.storable s hs).nonneg
    rw [writeRecordKey_inj, hid]
    omega
  dsimp only
  rw [hfind, Option.any_some, if_pos (hw.storable r hr).visible]
  constructor
  · rw [hrest]
    exact fun s hs => hw.storable s (hmem s hs)
  · rw [hrest]
    exact hw.inOrder.sublist hsub
  · exact hw.fresh.removeWriteId hres
  · intro key d
    have hdata : (removeUserWrite w.writesDB writeId).dataForKey key =
        if key = writeRecordKey writeId then none else w.writesDB.dataForKey key :=
      APLevelDB.dataForKey_write w.writesDB (.remove (writeRecordKey writeId)) key
    rw [hdata, hrest]
    split
    · rename_i hkey
      constructor
      · intro h
        cases h
      · rintro ⟨s, hs, hkey', -⟩
        exact absurd ((hkeyOf s (hmem s hs)).mp (hkey'.symm.trans hkey)) (hother s hs)
    · rename_i hkey
      rw [hw.stored]
      constructor
      · rintro ⟨s, hs, hkey', hd⟩
        refine ⟨s, ?_, hkey', hd⟩
        rw [hall] at hs
        rcases List.mem_append.mp hs with hs | hs
        · exact List.mem_append_left _ hs
        · rcases List.mem_cons.mp hs with rfl | hs
          · exact absurd (hkey'.trans ((hkeyOf s hr).mpr rfl)) hkey
          · exact List.mem_append_right _ hs
      · rintro ⟨s, hs, h⟩
        exact ⟨s, hmem s hs, h⟩

/-! ### Starting again -/

/-- What is stored, in the order of its keys, is one record for each pending write. -/
lemma Saved.perm (hw : Saved w) : w.writesDB.entries.Perm
    (w.pendingWriteTree.allWrites.map fun r => (writeRecordKey r.writeId.toNat, userWrite r)) := by
  have hnodup : w.writesDB.entries.Nodup := by
    refine w.writesDB.sorted.imp fun {e f} hlt heq => ?_
    have hself : compare f.1 f.1 = .eq := Std.ReflCmp.compare_self
    rw [heq, hself] at hlt
    cases hlt
  have hkeys : (w.pendingWriteTree.allWrites.map fun r =>
      (writeRecordKey r.writeId.toNat, userWrite r)).Nodup := by
    refine List.pairwise_map.mpr (hw.inOrder.imp_of_mem fun {r s} hr hs hlt heq => ?_)
    have hnonneg := (hw.storable r hr).nonneg
    have hid := writeRecordKey_inj.mp (Prod.mk.inj heq).1
    omega
  refine (List.perm_ext_iff_of_nodup hnodup hkeys).mpr fun ⟨key, d⟩ => ?_
  rw [← APLevelDB.dataForKey_eq_some_iff, hw.stored, List.mem_map]
  constructor
  · rintro ⟨r, hr, rfl, rfl⟩
    exact ⟨r, hr, rfl⟩
  · rintro ⟨r, hr, heq⟩
    cases heq
    exact ⟨r, hr, rfl, rfl⟩

/-- Where each element has a value, those are the values. -/
lemma mapM_eq_filterMap {α β : Type} {f : α → Option β} {as : List α}
    (h : ∀ a ∈ as, (f a).isSome) : as.mapM f = some (as.filterMap f) := by
  induction as with
  | nil => rfl
  | cons a as ih =>
    obtain ⟨b, hb⟩ := Option.isSome_iff_exists.mp (h a (by simp))
    rw [List.mapM_cons, hb, ih fun c hc => h c (by simp [hc]), List.filterMap_cons_some hb]
    rfl

/-- **The writes that are read** are those that are pending, in their order. -/
lemma Saved.userWrites (hw : Saved w) :
    FLevelDBStorageEngine.userWrites w.writesDB = some w.pendingWriteTree.allWrites := by
  set rs := w.pendingWriteTree.allWrites with hrs
  have hread : ∀ r ∈ rs, writeRecord (userWrite r) = some r := fun r hr =>
    (hw.storable r hr).writeRecord
  have hisSome : ∀ entry ∈ w.writesDB.entries, (writeRecord entry.2).isSome := by
    intro entry hentry
    obtain ⟨r, hr, rfl⟩ := List.mem_map.mp (hw.perm.mem_iff.mp hentry)
    rw [hread r hr]
    rfl
  have hfilterMap : (rs.map fun r => (writeRecordKey r.writeId.toNat, userWrite r)).filterMap
      (fun entry => writeRecord entry.2) = rs := by
    rw [List.filterMap_map]
    exact (List.filterMap_congr hread).trans List.filterMap_some
  have hperm : (w.writesDB.entries.filterMap fun entry => writeRecord entry.2).Perm rs := by
    have hperm := hw.perm.filterMap fun entry => writeRecord entry.2
    rwa [hfilterMap] at hperm
  have hsorted := (List.perm_insertionSort (fun one two => one.writeId ≤ two.writeId)
    (w.writesDB.entries.filterMap fun entry => writeRecord entry.2)).trans hperm
  rw [FLevelDBStorageEngine.userWrites, mapM_eq_filterMap hisSome, Option.map_some]
  refine congrArg some (List.Perm.eq_of_pairwise ?_
    (List.pairwise_insertionSort _ _) (hw.inOrder.imp le_of_lt) hsorted)
  intro r s hr hs hle hge
  have hids : (rs.map FWriteRecord.writeId).Nodup :=
    List.pairwise_map.mpr (hw.inOrder.imp fun hlt => hlt.ne)
  exact List.inj_on_of_nodup_map hids (hsorted.mem_iff.mp hr) hs
    (le_antisymm hle hge)

/-- What restoring one write after another leads to. -/
structure Restored (scmp : ChildKey → ChildKey → Ordering) (w : Writes V)
    (rs : List (FWriteRecord ChildKey V)) (w' : Writes V) : Prop where
  writesDB : w'.writesDB = w.writesDB
  pendingWriteTree : w'.pendingWriteTree =
    rs.foldl (stack ChildKey.compare scmp) w.pendingWriteTree
  connection : w'.connection = w.connection ++ rs.map put
  fresh : Fresh w'.pendingWriteTree w'.writeIdCounter

lemma Restored.allWrites {rs : List (FWriteRecord ChildKey V)} (h : Restored scmp w rs w') :
    w'.pendingWriteTree.allWrites = w.pendingWriteTree.allWrites ++ rs := by
  rw [h.pendingWriteTree, allWrites_foldl_stack]

variable (scmp) in
/-- **Restoring**: the ids go up, and no write is left out. -/
lemma exists_restored {rs : List (FWriteRecord ChildKey V)} {lastWriteId : ℤ}
    (hrs : ∀ r ∈ rs, Storable r) (hinOrder : rs.Pairwise fun r s => r.writeId < s.writeId)
    (hlast : ∀ r ∈ rs, lastWriteId < r.writeId)
    (hnew : ∀ r ∈ rs, Fresh w.pendingWriteTree r.writeId)
    (hfresh : Fresh w.pendingWriteTree w.writeIdCounter) :
    ∃ lastWriteId' w', rs.foldlM (restoreWrite scmp) (lastWriteId, w) = some (lastWriteId', w') ∧
      Restored scmp w rs w' := by
  induction rs generalizing lastWriteId w with
  | nil => exact ⟨lastWriteId, w, rfl, rfl, rfl, by simp, hfresh⟩
  | cons r rs ih =>
    obtain ⟨hlt, hinOrder⟩ := List.pairwise_cons.mp hinOrder
    have hr := hrs r (by simp)
    have hrecord : (⟨r.writeId, r.path, r.overwrite, true⟩ : FWriteRecord ChildKey V) = r := by
      rw [← hr.visible]
    set w₁ : Writes V := { w with
      writeIdCounter := r.writeId.toNat + 1
      connection := w.connection ++ [put r]
      pendingWriteTree := w.pendingWriteTree.stack ChildKey.compare scmp r } with hw₁
    have hstep : restoreWrite scmp (lastWriteId, w) r = some (r.writeId, w₁) := by
      have hadd := (hnew r (by simp)).addOverwriteAtPath ChildKey.compare scmp r.path r.overwrite
        true
      rw [hrecord] at hadd
      have hrlast := hlast r (by simp)
      rw [restoreWrite, if_neg (not_le_of_gt hrlast), hadd]
      rfl
    have hcounter : (w₁.writeIdCounter : ℤ) = r.writeId + 1 := by
      have hnonneg := hr.nonneg
      rw [hw₁]
      dsimp only
      omega
    have hfresh₁ : Fresh w₁.pendingWriteTree (r.writeId + 1) := (hnew r (by simp)).stack
    obtain ⟨lastWriteId', w', hfold, h⟩ := ih (fun s hs => hrs s (by simp [hs])) hinOrder
      hlt (fun s hs => hfresh₁.mono (hlt s hs)) (hcounter ▸ hfresh₁)
    refine ⟨lastWriteId', w', ?_, h.writesDB, h.pendingWriteTree, ?_, h.fresh⟩
    · rw [List.foldlM_cons, hstep]
      exact hfold
    · rw [h.connection, hw₁, List.append_assoc]
      rfl

variable (scmp) in
/-- **Starting again** makes the writes that were pending pending again. -/
lemma Saved.restart (hw : Saved w) : ∃ w', restoreWrites scmp w.writesDB = some w' ∧
    Restored scmp ⟨w.writesDB, .init, 0, []⟩ w.pendingWriteTree.allWrites w' := by
  have hmin : NSIntegerMin < 0 := by decide
  have hlast : ∀ r ∈ w.pendingWriteTree.allWrites, NSIntegerMin < r.writeId := fun r hr =>
    hmin.trans_le (hw.storable r hr).nonneg
  set w₀ : Writes V := ⟨w.writesDB, .init, 0, []⟩ with hw₀
  obtain ⟨lastWriteId, w', hfold, h⟩ := exists_restored scmp hw.storable hw.inOrder
    hlast (w := w₀) (fun r hr => fresh_init.mono (hw.storable r hr).nonneg) fresh_init
  refine ⟨w', ?_, h⟩
  rw [restoreWrites, hw.userWrites, Option.bind_some, hfold]
  rfl

/-- **Each step** keeps the invariant. -/
lemma Saved.step (hw : Saved w) {e : Event V} (h : step scmp w e = some w') : Saved w' := by
  cases e with
  | set u =>
    obtain ⟨w₁, hset, hw₁⟩ := hw.exists_set scmp u
    rw [Writes.step, hset] at h
    cases h
    exact hw₁
  | ackWrite writeId => exact hw.ack h
  | restart =>
    obtain ⟨w₁, hrestored, h₁⟩ := hw.restart scmp
    rw [Writes.step, hrestored] at h
    cases h
    have hall : w'.pendingWriteTree.allWrites = w.pendingWriteTree.allWrites := h₁.allWrites
    constructor
    · rw [hall]
      exact hw.storable
    · rw [hall]
      exact hw.inOrder
    · exact h₁.fresh
    · rw [hall, h₁.writesDB]
      exact hw.stored

/-- Eleven writes, the first of which is acknowledged; the text of the last id is not in order. -/
def elevenWrites : List (Event ℕ) :=
  List.replicate 11 (.set ⟨.leaf 6, [ChildKey.ofIndex 1], .leaf 6, by decide⟩) ++ [.ackWrite 0]

end Writes

end Solta
