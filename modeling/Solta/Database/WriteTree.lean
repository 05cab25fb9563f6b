import Solta.Lib.Run
import Solta.Database.CompoundWrite

/-!
The writes the server has not acknowledged.

The pending writes stand in a list, and as one compound write that is kept up when a write comes
and when one goes. What a listener is shown is the server's data with the pending writes over
it, in their order. Only overwrites are pending; the app makes no merges and no transactions.
Nodes keep their children in the order of keys and the compound write in that of texts. Where it is
told what is shown, neither order ties two of the keys in use.
-/

namespace Solta

open Lib Overwrite Run FCompoundWrite

structure FWriteRecord (K V : Type) where
  writeId : ℤ
  path : List K
  overwrite : FNode K V
  visible : Bool

structure FWriteTree (K V : Type) where
  visibleWrites : FCompoundWrite K V
  allWrites : List (FWriteRecord K V)
  lastWriteId : ℤ

namespace FWriteTree

variable {K V : Type} [DecidableEq K] (cmp scmp : K → K → Ordering)

def init : FWriteTree K V := ⟨emptyWrite, [], -1⟩

/-- `[FPath contains:]`. -/
def contains (path other : List K) : Bool := path.isPrefixOf other

/-- The tree with a record on top. -/
def stack (t : FWriteTree K V) (record : FWriteRecord K V) : FWriteTree K V where
  allWrites := t.allWrites ++ [record]
  visibleWrites :=
    if record.visible then t.visibleWrites.addWrite cmp scmp record.overwrite record.path
    else t.visibleWrites
  lastWriteId := record.writeId

/-- An older write must not come on top of a newer one. -/
def addOverwriteAtPath (t : FWriteTree K V) (path : List K) (newData : FNode K V) (writeId : ℤ)
    (visible : Bool) : Option (FWriteTree K V) :=
  if writeId > t.lastWriteId then some (t.stack cmp scmp ⟨writeId, path, newData, visible⟩)
  else none

/-- One record of `layerTreeFromWrites`. -/
def layerRecord (treeRoot : List K) (compoundWrite : FCompoundWrite K V)
    (record : FWriteRecord K V) : FCompoundWrite K V :=
  if contains treeRoot record.path then
    compoundWrite.addWrite cmp scmp record.overwrite (relativePathFrom treeRoot record.path)
  else if contains record.path treeRoot then
    compoundWrite.addWrite cmp scmp
      (record.overwrite.getChild cmp (relativePathFrom record.path treeRoot)) []
  else compoundWrite

def layerTreeFromWrites (writes : List (FWriteRecord K V)) (filter : FWriteRecord K V → Bool)
    (treeRoot : List K) : FCompoundWrite K V :=
  (writes.filter filter).foldl (layerRecord cmp scmp treeRoot) emptyWrite

/-- Keeps hidden writes too. -/
def defaultFilter (_ : FWriteRecord K V) : Bool := true

def resetTree (t : FWriteTree K V) : FWriteTree K V where
  allWrites := t.allWrites
  visibleWrites := layerTreeFromWrites cmp scmp t.allWrites defaultFilter []
  lastWriteId := (t.allWrites.getLast?.map FWriteRecord.writeId).getD (-1)

/-- The loop of `removeWriteId`, from the last write down: whether the removed write was visible,
and whether it overlaps with others. -/
def scan (allWrites : List (FWriteRecord K V)) (index : ℕ) (path : List K) :
    ℕ → Bool × Bool → Bool × Bool
  | 0, r => r
  | i + 1, (wasVisible, overlaps) =>
    if wasVisible then
      scan allWrites index path i
        (match allWrites[i]? with
        | none => (wasVisible, overlaps)
        | some currentWrite =>
          if currentWrite.visible then
            if index ≤ i ∧ contains currentWrite.path path then (false, overlaps)
            else if contains path currentWrite.path then (wasVisible, true)
            else (wasVisible, overlaps)
          else (wasVisible, overlaps))
    else (wasVisible, overlaps)

/-- Whether views are to be looked at again, and the tree. The id must be there. -/
def removeWriteId (t : FWriteTree K V) (writeId : ℤ) : Option (Bool × FWriteTree K V) :=
  let index := t.allWrites.findIdx fun record => record.writeId = writeId
  match t.allWrites[index]? with
  | none => none
  | some writeToRemove =>
    let t := { t with allWrites := t.allWrites.eraseIdx index }
    let (wasVisible, overlaps) :=
      scan t.allWrites index writeToRemove.path t.allWrites.length (writeToRemove.visible, false)
    if !wasVisible then some (false, t)
    else if overlaps then some (true, resetTree cmp scmp t)
    else some (true, { t with
      visibleWrites := t.visibleWrites.removeWriteAtPath scmp writeToRemove.path })

/-- `calculateCompleteEventCacheAtPath`, with no writes excluded and no hidden ones. -/
def calculateCompleteEventCacheAtPath (t : FWriteTree K V) (treePath : List K)
    (completeServerCache : Option (FNode K V)) : Option (FNode K V) :=
  match t.visibleWrites.completeNodeAtPath cmp scmp treePath with
  | some shadowingNode => some shadowingNode
  | none =>
    let subMerge := t.visibleWrites.childCompoundWriteAtPath cmp scmp treePath
    if subMerge.isEmpty then completeServerCache
    else if completeServerCache.isNone && !subMerge.hasCompleteWriteAtPath cmp scmp [] then none
    else some (subMerge.applyToNode cmp (completeServerCache.getD FNode.emptyNode))

/-- The node to show after the server wrote below `childPath`, none where nothing changes. -/
def calculateEventCacheAfterServerOverwriteAtPath (t : FWriteTree K V) (treePath childPath : List K)
    (existingServerSnap : FNode K V) : Option (FNode K V) :=
  let path := treePath ++ childPath
  if t.visibleWrites.hasCompleteWriteAtPath cmp scmp path then none
  else
    let childMerge := t.visibleWrites.childCompoundWriteAtPath cmp scmp path
    if childMerge.isEmpty then some (existingServerSnap.getChild cmp childPath)
    else some (childMerge.applyToNode cmp (existingServerSnap.getChild cmp childPath))

/-! ### Runs -/

/-- What happens to the tree. -/
inductive Operation (K V : Type)
  | overwrite (path : List K) (newData : FNode K V) (writeId : ℤ)
  | ack (writeId : ℤ)

def step (t : FWriteTree K V) : Operation K V → Option (FWriteTree K V)
  | .overwrite path newData writeId => addOverwriteAtPath cmp scmp t path newData writeId true
  | .ack writeId => (removeWriteId cmp scmp t writeId).map Prod.snd

/-- A written node is canonical and not empty; a write that is acknowledged has no earlier one
pending above it. -/
def Orderly (t : FWriteTree K V) : Operation K V → Prop
  | .overwrite _ newData _ => Written cmp newData
  | .ack writeId => ∀ pre w post, t.allWrites = pre ++ w :: post →
      (∀ r ∈ pre, r.writeId ≠ writeId) → w.writeId = writeId →
        ∀ r ∈ pre, r.path <+: w.path → r.path = w.path

/-- The pending writes, by what they have at their leaves. -/
def pending (t : FWriteTree K V) : List (List K × Leaves K V) :=
  t.allWrites.map fun r => (r.path, r.overwrite.valueAt cmp)

/-- **The invariant**: the compound write shows the pending writes in their order. -/
structure Layered (t : FWriteTree K V) : Prop where
  pruned : t.visibleWrites.Pruned scmp (Written cmp)
  written : ∀ r ∈ t.allWrites, Written cmp r.overwrite ∧ r.visible = true
  complete : ∀ q, t.visibleWrites.hasCompleteWriteAtPath cmp scmp q ↔
    ∃ r ∈ t.allWrites, r.path <+: q
  shown : ∀ f, layer cmp scmp t.visibleWrites f = puts f (pending cmp t)

variable {cmp scmp} {t : FWriteTree K V}

lemma contains_iff {p q : List K} : contains p q = true ↔ p <+: q := List.isPrefixOf_iff_prefix

lemma scan_false (allWrites : List (FWriteRecord K V)) (index : ℕ) (path : List K) (i : ℕ)
    (overlaps : Bool) : scan allWrites index path i (false, overlaps) = (false, overlaps) := by
  cases i <;> rfl

/-- **The loop**: the write was not visible if a later one covers it; if it was, it overlaps with
the writes at and below its path. -/
lemma scan_loop {allWrites : List (FWriteRecord K V)} (hvisible : ∀ r ∈ allWrites, r.visible = true)
    (index : ℕ) (path : List K) {i : ℕ} (hi : i ≤ allWrites.length) (overlaps : Bool) :
    ((scan allWrites index path i (true, overlaps)).1 = false ↔
        ∃ r ∈ (allWrites.take i).drop index, r.path <+: path) ∧
      ((scan allWrites index path i (true, overlaps)).1 = true →
        ((scan allWrites index path i (true, overlaps)).2 = true ↔
          overlaps = true ∨ ∃ r ∈ allWrites.take i, path <+: r.path)) := by
  induction i generalizing overlaps with
  | zero => simp [scan]
  | succ i ih =>
    obtain ⟨r, hr⟩ : ∃ r, allWrites[i]? = some r := ⟨_, List.getElem?_eq_getElem (by omega)⟩
    have hvr : r.visible = true := hvisible r (List.mem_of_getElem? hr)
    have htake : allWrites.take (i + 1) = allWrites.take i ++ [r] := by
      rw [List.take_add_one, hr, Option.toList_some]
    have hdrop : ∀ r', r' ∈ (allWrites.take (i + 1)).drop index ↔
        r' ∈ (allWrites.take i).drop index ∨ (index ≤ i ∧ r' = r) := by
      intro r'
      have hlen : (allWrites.take i).length = i := by simp; omega
      rw [htake, List.drop_append, hlen, List.mem_append]
      by_cases hle : index ≤ i
      · simp [hle, Nat.sub_eq_zero_of_le hle]
      · have hone : 1 ≤ index - i := by omega
        simp [hle, List.drop_eq_nil_of_le (by simpa using hone : ([r]).length ≤ index - i)]
    rw [scan, if_pos rfl, hr]
    dsimp only
    rw [if_pos hvr]
    simp only [hdrop, contains_iff]
    rw [htake]
    by_cases hshadow : index ≤ i ∧ r.path <+: path
    · rw [if_pos hshadow, scan_false]
      refine ⟨iff_of_true rfl ⟨r, .inr ⟨hshadow.1, rfl⟩, hshadow.2⟩, fun h => ?_⟩
      cases h
    · rw [if_neg hshadow]
      have hleft : ∀ {o}, (∃ r', (r' ∈ (allWrites.take i).drop index ∨ index ≤ i ∧ r' = r) ∧
          r'.path <+: path) ↔ (scan allWrites index path i (true, o)).1 = false := by
        intro o
        rw [(ih (by omega) o).1]
        constructor
        · rintro ⟨r', hr' | ⟨hle, rfl⟩, hpre⟩
          · exact ⟨r', hr', hpre⟩
          · exact absurd ⟨hle, hpre⟩ hshadow
        · rintro ⟨r', hr', hpre⟩
          exact ⟨r', .inl hr', hpre⟩
      by_cases hbelow : path <+: r.path
      · rw [if_pos hbelow, hleft]
        refine ⟨Iff.rfl, fun h => ?_⟩
        rw [(ih (by omega) true).2 h]
        exact iff_of_true (.inl rfl) (.inr ⟨r, by simp, hbelow⟩)
      · rw [if_neg hbelow, hleft]
        refine ⟨Iff.rfl, fun h => ?_⟩
        rw [(ih (by omega) overlaps).2 h]
        simp [or_and_right, exists_or, hbelow]

/-! ### Ids -/

/-- The ids from some on are new. -/
structure Fresh (t : FWriteTree K V) (writeId : ℤ) : Prop where
  nonneg : 0 ≤ writeId
  last : t.lastWriteId < writeId
  pending : ∀ r ∈ t.allWrites, r.writeId < writeId

omit [DecidableEq K] in
lemma fresh_init : Fresh (init : FWriteTree K V) 0 where
  nonneg := Int.le_refl 0
  last := (by decide : (-1 : ℤ) < 0)
  pending r hr := absurd hr List.not_mem_nil

omit [DecidableEq K] in
lemma Fresh.mono {writeId writeId' : ℤ} (ht : Fresh t writeId) (h : writeId ≤ writeId') :
    Fresh t writeId' where
  nonneg := Int.le_trans ht.nonneg h
  last := Int.lt_of_lt_of_le ht.last h
  pending r hr := Int.lt_of_lt_of_le (ht.pending r hr) h

omit [DecidableEq K] in
variable (cmp scmp) in
/-- **A new id** can be stacked. -/
lemma Fresh.addOverwriteAtPath {writeId : ℤ} (ht : Fresh t writeId) (path : List K)
    (newData : FNode K V) (visible : Bool) :
    FWriteTree.addOverwriteAtPath cmp scmp t path newData writeId visible =
      some (t.stack cmp scmp ⟨writeId, path, newData, visible⟩) := if_pos ht.last

omit [DecidableEq K] in
lemma Fresh.stack {record : FWriteRecord K V} (ht : Fresh t record.writeId) :
    Fresh (t.stack cmp scmp record) (record.writeId + 1) where
  nonneg := by
    have hnonneg := ht.nonneg
    omega
  last := Int.lt_succ record.writeId
  pending r hr := by
    rcases List.mem_append.mp hr with hr | hr
    · have hlt := ht.pending r hr
      omega
    · rw [List.mem_singleton.mp hr]
      exact Int.lt_succ record.writeId

omit [DecidableEq K] in
lemma allWrites_foldl_stack (t : FWriteTree K V) (rs : List (FWriteRecord K V)) :
    (rs.foldl (FWriteTree.stack cmp scmp) t).allWrites = t.allWrites ++ rs := by
  induction rs generalizing t with
  | nil => simp
  | cons r rs ih =>
    rw [List.foldl_cons, ih, FWriteTree.stack, List.append_assoc]
    rfl

omit [DecidableEq K] in
/-- The list around the first record with an id. -/
lemma split_at {rs : List (FWriteRecord K V)} {writeId : ℤ} {w : FWriteRecord K V}
    (h : rs[rs.findIdx fun record => record.writeId = writeId]? = some w) :
    ∃ pre post, rs = pre ++ w :: post ∧
      (rs.findIdx fun record => record.writeId = writeId) = pre.length ∧
      w.writeId = writeId ∧ ∀ r ∈ pre, r.writeId ≠ writeId := by
  induction rs with
  | nil => cases h
  | cons r rs ih =>
    rw [List.findIdx_cons] at h ⊢
    by_cases hr : r.writeId = writeId
    · simp only [hr, decide_true, cond_true] at h ⊢
      cases h
      exact ⟨[], rs, rfl, rfl, hr, by simp⟩
    · simp only [hr, decide_false, cond_false, List.getElem?_cons_succ] at h ⊢
      obtain ⟨pre, post, rfl, hindex, hid, hpre⟩ := ih h
      refine ⟨r :: pre, post, rfl, by rw [hindex, List.length_cons], hid, fun r' hr' => ?_⟩
      rcases List.mem_cons.mp hr' with rfl | hr'
      · exact hr
      · exact hpre r' hr'

/-- What a removal leaves of the ids: the last one stays, or is that of a pending write. -/
lemma removeWriteId_cases {writeId : ℤ} {res : Bool × FWriteTree K V}
    (h : removeWriteId cmp scmp t writeId = some res) :
    ∃ pre w post, t.allWrites = pre ++ w :: post ∧ w.writeId = writeId ∧
      (∀ r ∈ pre, r.writeId ≠ writeId) ∧ res.2.allWrites = pre ++ post ∧
      (res.2.lastWriteId = t.lastWriteId ∨
        res.2.lastWriteId = ((pre ++ post).getLast?.map FWriteRecord.writeId).getD (-1)) := by
  rw [removeWriteId] at h
  dsimp only at h
  split at h
  · cases h
  · rename_i w hw
    obtain ⟨pre, post, hall, hindex, hid, hpre⟩ := split_at hw
    have herase : t.allWrites.eraseIdx pre.length = pre ++ post := by
      rw [hall, List.eraseIdx_append_of_length_le (le_refl _)]
      simp
    refine ⟨pre, w, post, hall, hid, hpre, ?_⟩
    rw [hindex, herase] at h
    split_ifs at h
    · cases h
      exact ⟨rfl, .inl rfl⟩
    · cases h
      exact ⟨rfl, .inr rfl⟩
    · cases h
      exact ⟨rfl, .inl rfl⟩

/-- A removal leaves new ids new. -/
lemma Fresh.removeWriteId {bound writeId : ℤ} (ht : Fresh t bound) {res : Bool × FWriteTree K V}
    (h : FWriteTree.removeWriteId cmp scmp t writeId = some res) : Fresh res.2 bound := by
  obtain ⟨pre, w, post, hall, -, -, hrest, hlast⟩ := removeWriteId_cases h
  have hpending : ∀ r ∈ pre ++ post, r.writeId < bound := by
    intro r hr
    refine ht.pending r ?_
    rw [hall]
    rcases List.mem_append.mp hr with hr | hr <;> simp [hr]
  refine ⟨ht.nonneg, ?_, by rw [hrest]; exact hpending⟩
  rcases hlast with hlast | hlast
  · rw [hlast]
    exact ht.last
  · rw [hlast]
    cases hget : (pre ++ post).getLast? with
    | none =>
      have hnonneg := ht.nonneg
      rw [Option.map_none, Option.getD_none]
      omega
    | some r => exact hpending r (List.mem_of_getLast? hget)

variable (cmp scmp) in
/-- A write that is pending can be removed. -/
lemma exists_removeWriteId {r : FWriteRecord K V} (h : r ∈ t.allWrites) :
    ∃ res, removeWriteId cmp scmp t r.writeId = some res := by
  have hlt : (t.allWrites.findIdx fun record => record.writeId = r.writeId) <
      t.allWrites.length := List.findIdx_lt_length_of_exists ⟨r, h, decide_eq_true rfl⟩
  rw [removeWriteId]
  dsimp only
  rw [List.getElem?_eq_getElem hlt]
  dsimp only
  split_ifs
  · exact ⟨_, rfl⟩
  · exact ⟨_, rfl⟩
  · exact ⟨_, rfl⟩

/-! ### Every step keeps the invariant -/

lemma layered_init : Layered cmp scmp (init : FWriteTree K V) where
  pruned := FImmutableTree.pruned_empty
  written r hr := absurd hr List.not_mem_nil
  complete q := by simp [init, emptyWrite, hasCompleteWriteAtPath, completeNode_empty]
  shown f := layer_empty f

omit [DecidableEq K] in
lemma pending_append {t : FWriteTree K V} {rs ss : List (FWriteRecord K V)}
    (h : t.allWrites = rs ++ ss) : pending cmp t =
      (rs.map fun r => (r.path, r.overwrite.valueAt cmp)) ++
        ss.map fun r => (r.path, r.overwrite.valueAt cmp) := by
  rw [pending, h, List.map_append]

variable [Std.TransCmp cmp] [Std.LawfulEqCmp cmp] [Std.TransCmp scmp] [Std.LawfulEqCmp scmp]

lemma layered_stack (ht : Layered cmp scmp t) {record : FWriteRecord K V}
    (hnew : Written cmp record.overwrite) (hvisible : record.visible = true) :
    Layered cmp scmp (t.stack cmp scmp record) := by
  have hadded : (t.stack cmp scmp record).visibleWrites =
      t.visibleWrites.addWrite cmp scmp record.overwrite record.path := by
    rw [stack, if_pos hvisible]
  constructor
  · rw [hadded]
    exact pruned_addWrite ht.pruned hnew record.path
  · intro r hr
    rcases List.mem_append.mp hr with hr | hr
    · exact ht.written r hr
    · rw [List.mem_singleton.mp hr]
      exact ⟨hnew, hvisible⟩
  · intro q
    rw [hadded]
    refine (hasComplete_addWrite ht.pruned record.overwrite record.path q).trans ?_
    simp [stack, ht.complete, or_and_right, exists_or]
  · intro f
    rw [hadded, pending_append rfl]
    refine (layer_addWrite ht.pruned hnew record.path f).trans ?_
    rw [ht.shown]
    exact (puts_snoc f (pending cmp t) (record.path, record.overwrite.valueAt cmp)).symm

/-- Some writes after each other. -/
lemma layered_foldl_stack (ht : Layered cmp scmp t) {rs : List (FWriteRecord K V)}
    (hrs : ∀ r ∈ rs, Written cmp r.overwrite ∧ r.visible = true) :
    Layered cmp scmp (rs.foldl (stack cmp scmp) t) := by
  induction rs generalizing t with
  | nil => exact ht
  | cons r rs ih =>
    obtain ⟨hnew, hvisible⟩ := hrs r (by simp)
    exact ih (layered_stack ht hnew hvisible) fun s hs => hrs s (by simp [hs])

/-- **A write that is added**. -/
lemma layered_add (ht : Layered cmp scmp t) {path : List K} {newData : FNode K V}
    (hnew : Written cmp newData) {writeId : ℤ} {t' : FWriteTree K V}
    (h : addOverwriteAtPath cmp scmp t path newData writeId true = some t') :
    Layered cmp scmp t' := by
  rw [addOverwriteAtPath] at h
  split at h
  · cases h
    exact layered_stack ht hnew rfl
  · cases h

/-- The tree that is built anew. -/
lemma layered_reset {rs : List (FWriteRecord K V)}
    (hwritten : ∀ r ∈ rs, Written cmp r.overwrite ∧ r.visible = true) (lastWriteId : ℤ) :
    Layered cmp scmp ⟨layerTreeFromWrites cmp scmp rs defaultFilter [], rs, lastWriteId⟩ := by
  have hfilter : rs.filter defaultFilter = rs := List.filter_eq_self.mpr fun _ _ => rfl
  rw [layerTreeFromWrites, hfilter]
  induction rs using List.reverseRecOn with
  | nil =>
    have hinit : Layered cmp scmp (init : FWriteTree K V) := layered_init
    exact ⟨hinit.pruned, hinit.written, hinit.complete, hinit.shown⟩
  | append_singleton rs r ih =>
    have hrs := ih (fun s hs => hwritten s (by simp [hs]))
      (List.filter_eq_self.mpr fun _ _ => rfl)
    have hr := hwritten r (by simp)
    have hstacked := layered_stack hrs hr.1 hr.2
    rw [List.foldl_append]
    have heq : layerRecord cmp scmp [] (rs.foldl (layerRecord cmp scmp []) emptyWrite) r =
        (rs.foldl (layerRecord cmp scmp []) emptyWrite).addWrite cmp scmp r.overwrite r.path := by
      rw [layerRecord, if_pos (contains_iff.mpr List.nil_prefix)]
      rfl
    rw [List.foldl_cons, List.foldl_nil, heq]
    rw [stack, if_pos hr.2] at hstacked
    exact ⟨hstacked.pruned, hstacked.written, hstacked.complete, hstacked.shown⟩

omit [Std.TransCmp cmp] [Std.LawfulEqCmp cmp] in
/-- The pending writes without one of them that is apart from the others. -/
lemma layered_remove {pre post : List (FWriteRecord K V)} {w : FWriteRecord K V}
    (ht : Layered cmp scmp t) (hall : t.allWrites = pre ++ w :: post)
    (hapart : ∀ r ∈ pre ++ post, Apart w.path r.path) (lastWriteId : ℤ) :
    Layered cmp scmp
      ⟨t.visibleWrites.removeWriteAtPath scmp w.path, pre ++ post, lastWriteId⟩ := by
  have hmem : ∀ r, r ∈ t.allWrites ↔ r = w ∨ r ∈ pre ++ post := by
    intro r
    rw [hall]
    simp only [List.mem_append, List.mem_cons]
    tauto
  have hfree : Free cmp scmp t.visibleWrites w.path := by
    intro q hq hne
    by_contra hcomplete
    obtain ⟨r, hr, hpre⟩ := (ht.complete q).mp (by simpa using hcomplete)
    rcases (hmem r).mp hr with rfl | hr
    · exact hne (hq.eq_of_length_le hpre.length_le)
    · exact (hapart r hr).2 (hpre.trans hq)
  obtain ⟨hpruned, hcomplete, hlayer⟩ := removed ht.pruned hfree
  have hcomplete' : ∀ q, hasCompleteWriteAtPath cmp scmp
      (t.visibleWrites.removeWriteAtPath scmp w.path) q ↔ ∃ r ∈ pre ++ post, r.path <+: q := by
    intro q
    rw [hcomplete, ht.complete]
    constructor
    · rintro ⟨⟨r, hr, hpre⟩, hnot⟩
      rcases (hmem r).mp hr with rfl | hr
      · exact absurd hpre hnot
      · exact ⟨r, hr, hpre⟩
    · rintro ⟨r, hr, hpre⟩
      refine ⟨⟨r, (hmem r).mpr (.inr hr), hpre⟩, fun hw => ?_⟩
      rcases List.prefix_or_prefix_of_prefix hw hpre with h | h
      · exact (hapart r hr).1 h
      · exact (hapart r hr).2 h
  refine ⟨hpruned, fun r hr => ht.written r ((hmem r).mpr (.inr hr)), hcomplete', fun f => ?_⟩
  have hpending : ∀ v ∈ pending cmp ⟨t.visibleWrites, pre ++ post, lastWriteId⟩,
      ∃ r ∈ pre ++ post, v = (r.path, r.overwrite.valueAt cmp) := by
    intro v hv
    obtain ⟨r, hr, rfl⟩ := List.mem_map.mp hv
    exact ⟨r, hr, rfl⟩
  funext q
  rcases below_or_above_or_apart w.path q with ⟨s, rfl⟩ | ⟨hq, hne⟩ | hq
  · -- below the removed write there are no others
    rw [layer_of_incomplete hpruned, puts_of_apart]
    · intro v hv
      obtain ⟨r, hr, rfl⟩ := hpending v hv
      exact (hapart r hr).symm.extend (List.prefix_refl _) (List.prefix_append _ s)
    · intro s'
      rw [Bool.eq_false_iff, ne_eq, hcomplete]
      exact fun h => h.2 ((List.prefix_append _ s).trans (List.prefix_append _ s'))
  · -- above it, what is there depends on the others
    have hnot : ∀ r ∈ pre ++ post, ¬ r.path <+: q := fun r hr hpre =>
      (hapart r hr).2 (hpre.trans hq)
    by_cases hex : ∃ r ∈ pre ++ post, q <+: r.path
    · obtain ⟨r, hr, s, hs⟩ := hex
      have hbelow := (hcomplete' (q ++ s)).mpr ⟨r, hr, hs ▸ List.prefix_refl _⟩
      have hself : hasCompleteWriteAtPath cmp scmp
          (t.visibleWrites.removeWriteAtPath scmp w.path) q = false := by
        rw [Bool.eq_false_iff, ne_eq, hcomplete']
        rintro ⟨r', hr', hpre⟩
        exact hnot r' hr' hpre
      rw [layer_of_complete_below hpruned hself hbelow, puts_above]
      · intro v hv
        obtain ⟨r', hr', rfl⟩ := hpending v hv
        exact hnot r' hr'
      · exact ⟨_, List.mem_map_of_mem hr, s, hs⟩
    · have hapartq : ∀ r ∈ pre ++ post, Apart r.path q := fun r hr =>
        ⟨hnot r hr, fun hpre => hex ⟨r, hr, hpre⟩⟩
      rw [layer_of_incomplete hpruned, puts_of_apart]
      · intro v hv
        obtain ⟨r, hr, rfl⟩ := hpending v hv
        exact hapartq r hr
      · intro s
        rw [Bool.eq_false_iff, ne_eq, hcomplete']
        rintro ⟨r, hr, hpre⟩
        rcases List.prefix_or_prefix_of_prefix hpre (List.prefix_append q s) with h | h
        · exact (hapartq r hr).1 h
        · exact (hapartq r hr).2 h
  · rw [hlayer f q hq, ht.shown, pending_append hall, List.map_cons, pending, List.map_append]
    exact puts_drop hq

/-- **One step** keeps the invariant. -/
lemma layered_step (ht : Layered cmp scmp t) {op : Operation K V} (hop : Orderly cmp t op)
    {t' : FWriteTree K V} (h : step cmp scmp t op = some t') : Layered cmp scmp t' := by
  cases op with
  | overwrite path newData writeId =>
    exact layered_add ht hop h
  | ack writeId =>
    rw [step, removeWriteId] at h
    dsimp only at h
    split at h
    · cases h
    · rename_i w hw
      obtain ⟨pre, post, hall, hindex, hid, hpre⟩ := split_at hw
      have horderly := hop pre w post hall hpre hid
      have herase : t.allWrites.eraseIdx pre.length = pre ++ post := by
        rw [hall, List.eraseIdx_append_of_length_le (le_refl _)]
        simp
      have hwritten : ∀ r ∈ pre ++ post, Written cmp r.overwrite ∧ r.visible = true := by
        intro r hr
        refine ht.written r ?_
        rw [hall]
        rcases List.mem_append.mp hr with hr | hr <;> simp [hr]
      have hvisible : w.visible = true := (ht.written w (by simp [hall])).2
      obtain ⟨hshadow, hoverlap⟩ := scan_loop (fun r hr => (hwritten r hr).2) pre.length w.path
        (le_refl (pre ++ post).length) false
      rw [List.take_length] at hshadow hoverlap
      rw [List.drop_left] at hshadow
      rw [hindex, herase, hvisible] at h
      generalize scan (pre ++ post) pre.length w.path (pre ++ post).length (true, false) = r at *
      obtain ⟨wasVisible, overlaps⟩ := r
      cases wasVisible
      · -- a later write covers the removed one
        cases h
        obtain ⟨v, hv, hvpre⟩ := hshadow.mp rfl
        refine ⟨ht.pruned, hwritten, fun q => ?_, fun f => ?_⟩
        · rw [ht.complete, hall]
          constructor
          · rintro ⟨r, hr, hrq⟩
            rcases List.mem_append.mp hr with hr | hr
            · exact ⟨r, by simp [hr], hrq⟩
            · rcases List.mem_cons.mp hr with rfl | hr
              · exact ⟨v, by simp [hv], hvpre.trans hrq⟩
              · exact ⟨r, by simp [hr], hrq⟩
          · rintro ⟨r, hr, hrq⟩
            exact ⟨r, by rcases List.mem_append.mp hr with hr | hr <;> simp [hr], hrq⟩
        · rw [ht.shown, pending_append hall, List.map_cons, pending, List.map_append]
          exact puts_shadowed (List.mem_map_of_mem hv) hvpre
      · cases overlaps
        · -- no other write is at, above or below it
          cases h
          refine layered_remove ht hall (fun r hr => ⟨fun hbelow => ?_, fun habove => ?_⟩) _
          · have htrue := (hoverlap rfl).mpr (.inr ⟨r, hr, hbelow⟩)
            cases htrue
          · rcases List.mem_append.mp hr with hr | hr
            · have hsame := (hoverlap rfl).mpr (.inr ⟨r, by simp [hr],
                horderly r hr habove ▸ List.prefix_refl _⟩)
              cases hsame
            · have hfalse := hshadow.mpr ⟨r, hr, habove⟩
              cases hfalse
        · cases h
          exact layered_reset hwritten _

/-! ### What is shown -/

variable (cmp) in
/-- The server's data with the pending writes made in their order. -/
def shown (t : FWriteTree K V) (server : FNode K V) : FNode K V :=
  t.allWrites.foldl (fun n r => n.updateChild cmp r.path r.overwrite) server

omit [Std.TransCmp scmp] [Std.LawfulEqCmp scmp] in
lemma shown_spec (hwritten : ∀ r ∈ t.allWrites, Written cmp r.overwrite) {server : FNode K V}
    (hs : server.Canonical cmp) : (shown cmp t server).Canonical cmp ∧
      (shown cmp t server).valueAt cmp = puts (server.valueAt cmp) (pending cmp t) := by
  unfold shown pending
  generalize t.allWrites = rs at hwritten
  induction rs generalizing server with
  | nil => exact ⟨hs, rfl⟩
  | cons r rs ih =>
    have hr := hwritten r (by simp)
    obtain ⟨hcanonical, hvalue⟩ := ih (hs.updateChild hr.1 hr.2 r.path)
      fun s hmem => hwritten s (by simp [hmem])
    refine ⟨hcanonical, ?_⟩
    rw [List.foldl_cons, hvalue, FNode.valueAt_updateChild hs hr.2, List.map_cons, puts_cons]

lemma layered_run {as : List (Operation K V)}
    (has : Along (step cmp scmp) (Orderly cmp) init as) (h : run (step cmp scmp) init as = some t) :
    Layered cmp scmp t :=
  run_inv_along (fun _ _ _ ht hop hstep => layered_step ht hop hstep) layered_init has h

/-- What is shown below a path, when a write above is complete. -/
lemma shown_of_complete (ht : Layered cmp scmp t) {server : FNode K V} (hs : server.Canonical cmp)
    {p : List K} {n : FNode K V} (h : t.visibleWrites.completeNodeAtPath cmp scmp p = some n) :
    n = (shown cmp t server).getChild cmp p := by
  obtain ⟨hcanonical, hvalue⟩ := shown_spec (fun r hr => (ht.written r hr).1) hs
  obtain ⟨hn, hbelow⟩ := below_layer_of_complete ht.pruned h (server.valueAt cmp)
  refine hn.ext_valueAt (hcanonical.getChild p) ?_
  rw [← hbelow, FNode.valueAt_getChild, hvalue, ht.shown]

/-- What is shown below a path, when none is. -/
lemma shown_of_incomplete (ht : Layered cmp scmp t) {server : FNode K V}
    (hs : server.Canonical cmp) {p : List K}
    (h : t.visibleWrites.completeNodeAtPath cmp scmp p = none) :
    (t.visibleWrites.childCompoundWriteAtPath cmp scmp p).applyToNode cmp
      (server.getChild cmp p) = (shown cmp t server).getChild cmp p := by
  obtain ⟨hcanonical, hvalue⟩ := shown_spec (fun r hr => (ht.written r hr).1) hs
  obtain ⟨hpruned, hbelow⟩ := below_layer_of_incomplete ht.pruned h (server.valueAt cmp)
  have hchild : t.visibleWrites.childCompoundWriteAtPath cmp scmp p =
      t.visibleWrites.subtreeAtPath scmp p := by
    rw [childCompoundWriteAtPath, h]
    cases p with
    | nil =>
      generalize t.visibleWrites = w
      cases w
      rfl
    | cons k p => rfl
  have happlied := applied hpruned [] (hs.getChild p)
  rw [hchild]
  refine happlied.canonical.ext_valueAt (hcanonical.getChild p) ?_
  refine (valueAt_applyToNode hpruned (hs.getChild p)).trans ?_
  rw [FNode.valueAt_getChild, FNode.valueAt_getChild, hvalue, ← ht.shown, hbelow]

lemma event_cache_of_layered (ht : Layered cmp scmp t) {server : FNode K V}
    (hs : server.Canonical cmp) (treePath : List K) :
    t.calculateCompleteEventCacheAtPath cmp scmp treePath (some (server.getChild cmp treePath)) =
      some ((shown cmp t server).getChild cmp treePath) := by
  rw [calculateCompleteEventCacheAtPath]
  cases hcomplete : t.visibleWrites.completeNodeAtPath cmp scmp treePath with
  | some n => rw [shown_of_complete ht hs hcomplete]
  | none =>
    have happly := shown_of_incomplete ht hs hcomplete
    simp only [Option.isNone_some, Bool.false_and, Bool.false_eq_true, if_false, Option.getD_some]
    split
    · rename_i hempty
      rw [FImmutableTree.eq_empty hempty] at happly
      rw [← happly]
      rfl
    · rw [happly]

/-- A write, one below it, and the answer to the first. -/
def twoWrites : List (Operation ℕ ℕ) :=
  [.overwrite [1] (.leaf 5) 0, .overwrite [1, 2] (.leaf 6) 1, .ack 0]

lemma twoWrites_orderly :
    Along (step compare compare) (Orderly compare) (init : FWriteTree ℕ ℕ) twoWrites := by
  refine ⟨⟨.leaf 5, rfl⟩, fun t ht => ?_⟩
  cases ht
  refine ⟨⟨.leaf 6, rfl⟩, fun t ht => ?_⟩
  cases ht
  refine ⟨fun pre w post hall hpre _ r hr => ?_, fun _ _ => trivial⟩
  cases pre with
  | nil => cases hr
  | cons r' pre =>
    injection hall with hfirst
    exact absurd (congrArg FWriteRecord.writeId hfirst).symm (hpre r' List.mem_cons_self)

/-- A write that is answered before an earlier one above it stays shown. -/
example : (run (step compare compare) (init : FWriteTree ℕ ℕ)
    [.overwrite [1] (.leaf 5) 0, .overwrite [1, 2] (.leaf 6) 1, .ack 1]).bind (fun t =>
      (t.calculateCompleteEventCacheAtPath compare compare [1, 2] none).map fun n =>
        n.valueAt compare []) = some (some 6) := by
  decide

end FWriteTree

end Solta
