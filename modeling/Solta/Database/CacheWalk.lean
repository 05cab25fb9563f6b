import Solta.Database.StorageEngine

/-!
What the walk over the cache reads.

The entries below a path stand together, and so do those below each child. The walk makes a
dictionary of them, child after child, and the node that is made from it has a leaf where there
is an entry, and no other.
-/

namespace Solta.FLevelDBStorageEngine

open Lib SortedList Overwrite APLevelDB FSnapshotUtilities

variable {V : Type} {p q r : List ChildKey} {k : ChildKey} {e : Text × Json V}
variable {bs cs es rest : List (Text × Json V)} {n : FNode ChildKey V} {depth fuel : ℕ}

/-- Entries of leaves below a path, none of them below another. -/
structure Block (p : List ChildKey) (bs : List (Text × Json V)) : Prop where
  sorted : Sorted compare bs
  leaves : ∀ e ∈ bs, ∃ r v, e = (serverCacheKey (p ++ r), .leaf v)
  lone : ∀ q r v w, (serverCacheKey q, Json.leaf v) ∈ bs →
    (serverCacheKey (q ++ r), Json.leaf w) ∈ bs → r = []

/-- A node that has the leaves of some entries below a path. -/
structure Holds (p : List ChildKey) (bs : List (Text × Json V)) (n : FNode ChildKey V) :
    Prop where
  canonical : n.Canonical ChildKey.compare
  nonempty : n.isEmpty = false
  leaves : ∀ r v, n.valueAt ChildKey.compare r = some v ↔ (serverCacheKey (p ++ r), .leaf v) ∈ bs

/-- No leaf is too deep for a node that is made at some depth. -/
def Shallow (p : List ChildKey) (bs : List (Text × Json V)) (depth : ℕ) : Prop :=
  ∀ r v, (serverCacheKey (p ++ r), Json.leaf v) ∈ bs → depth + r.length ≤ kFirebaseMaxObjectDepth

lemma Block.of_sublist (hp : Block p bs) (h : cs.Sublist bs) : Block p cs where
  sorted := hp.sorted.sublist h
  leaves e he := hp.leaves e (h.subset he)
  lone q r v w hv hw := hp.lone q r v w (h.subset hv) (h.subset hw)

/-! ### The children one after the other -/

lemma headD_splitOn {a s : Text} (ha : '/' ∉ a) : ((a ++ '/' :: s).splitOn '/').headD [] = a := by
  rw [List.splitOn_append_cons_self, List.splitOn_eq_singleton ha]
  rfl

/-- The name of the child that a key is below. -/
lemma childName_eq (p r : List ChildKey) (k : ChildKey) :
    ((((serverCacheKey (p ++ k :: r)).drop (serverCacheKey p).length).splitOn '/').headD []) =
      k.name := by
  rw [serverCacheKey_append, List.drop_left, pathKey_cons]
  exact headD_splitOn (slash_notMem_name k)

/-- **The entries below the first child** come first. -/
lemma Block.exists_child {v : V} (h : Block p ((serverCacheKey (p ++ k :: r), .leaf v) :: es)) :
    ∃ cs bs, (serverCacheKey (p ++ k :: r), .leaf v) :: es = cs ++ bs ∧ cs ≠ [] ∧
      Block (p ++ [k]) cs ∧ Block p bs ∧ ∀ e ∈ bs, ¬ serverCacheKey (p ++ [k]) <+: e.1 := by
  set bs := (serverCacheKey (p ++ k :: r), Json.leaf v) :: es with hbs
  have hfirst : serverCacheKey (p ++ [k]) <+: serverCacheKey (p ++ k :: r) := by
    rw [serverCacheKey_begins, List.append_cons p k r]
    exact List.prefix_append _ _
  have hlow : ∀ e ∈ bs, compare e.1 (serverCacheKey (p ++ [k])) ≠ .lt := by
    intro e he hlt
    rcases List.mem_cons.mp he with rfl | he
    · exact PrefixRange.not_lt_of_prefix hfirst hlt
    · have hafter := (sorted_cons.mp h.sorted).1 e he
      exact PrefixRange.not_lt_of_prefix hfirst (Std.TransCmp.lt_trans hafter hlt)
  obtain ⟨rest, heq, hrest⟩ := PrefixRange.exists_rest h.sorted hlow
  have hchild : ∀ e ∈ bs.filter fun e => serverCacheKey (p ++ [k]) <+: e.1,
      e ∈ bs ∧ serverCacheKey (p ++ [k]) <+: e.1 := fun e he =>
    ⟨List.mem_of_mem_filter he, of_decide_eq_true (List.mem_filter.mp he).2⟩
  refine ⟨_, rest, heq, ?_, ⟨?_, ?_, ?_⟩, ?_, hrest⟩
  · rw [hbs, List.filter_cons, if_pos (decide_eq_true hfirst)]
    exact List.cons_ne_nil _ _
  · exact h.sorted.sublist List.filter_sublist
  · intro e he
    obtain ⟨hmem, hpre⟩ := hchild e he
    obtain ⟨s, w, rfl⟩ := h.leaves e hmem
    obtain ⟨t, ht⟩ := serverCacheKey_begins.mp hpre
    exact ⟨t, w, by rw [ht]⟩
  · exact fun q s v w hv hw => h.lone q s v w (hchild _ hv).1 (hchild _ hw).1
  · refine h.of_sublist ?_
    rw [heq]
    exact List.sublist_append_right _ _

/-- What the loop makes of the entries below a path: the children, each from a value. -/
structure Made (p : List ChildKey) (bs : List (Text × Json V)) (depth : ℕ)
    (made : List (ChildKey × Json V × FNode ChildKey V)) : Prop where
  node : ∀ c ∈ made, nodeFrom c.2.1 depth = some c.2.2
  holds : ∀ c ∈ made, Holds (p ++ [c.1]) bs c.2.2
  all : ∀ k r v, (serverCacheKey (p ++ k :: r), Json.leaf v) ∈ bs → k ∈ made.map Prod.fst
  nodup : (made.map Prod.fst).Nodup

/-- **The node of the children** holds the entries. -/
lemma Made.exists_node {made : List (ChildKey × Json V × FNode ChildKey V)}
    (hm : Made p bs (depth + 1) made) (hbs : Block p bs) (hne : bs ≠ [])
    (hinner : ∀ v, (serverCacheKey p, .leaf v) ∉ bs) (hdepth : Shallow p bs depth) :
    ∃ n, nodeFrom (.dictionary (made.map fun c => (c.1.name, c.2.1))) depth = some n ∧
      Holds p bs n := by
  obtain ⟨e, he⟩ := List.exists_mem_of_ne_nil bs hne
  obtain ⟨r, v, rfl⟩ := hbs.leaves e he
  have hd := hdepth r v he
  have hkeys : (made.map fun c => (c.1, c.2.2)).Pairwise fun e f => e.1 ≠ f.1 := by
    rw [List.pairwise_map]
    exact List.pairwise_map.mp hm.nodup
  obtain ⟨cs, hcs, hsorted, hperm⟩ := exists_withChildren hkeys
  have hmem : ∀ k m, (k, m) ∈ cs ↔ ∃ c ∈ made, c.1 = k ∧ c.2.2 = m := by
    intro k m
    rw [hperm.mem_iff, List.mem_map]
    simp
  refine ⟨.children cs, ?_, ⟨.children hsorted ?_ ?_, ?_, ?_⟩⟩
  · rw [nodeFrom, if_neg (by omega), entriesFrom_map, Option.bind_some, hcs]
    exact fun c hc => ⟨hm.node c hc, (hm.holds c hc).nonempty⟩
  · rintro ⟨k, m⟩ hk
    obtain ⟨c, hc, rfl, rfl⟩ := (hmem k m).mp hk
    exact (hm.holds c hc).canonical
  · rintro ⟨k, m⟩ hk
    obtain ⟨c, hc, rfl, rfl⟩ := (hmem k m).mp hk
    exact (hm.holds c hc).nonempty
  · cases r with
    | nil =>
      rw [List.append_nil] at he
      exact absurd he (hinner v)
    | cons k r =>
      obtain ⟨c, hc, rfl⟩ := List.mem_map.mp (hm.all k r v he)
      have hc' := (hmem c.1 c.2.2).mpr ⟨c, hc, rfl, rfl⟩
      cases cs with
      | nil => cases hc'
      | cons _ _ => rfl
  · intro r v
    cases r with
    | nil =>
      rw [List.append_nil]
      constructor
      · intro h
        cases h
      · exact fun h => absurd h (hinner v)
    | cons k r =>
      rw [FNode.valueAt_cons, FNode.getImmediateChild]
      cases hfind : find ChildKey.compare k cs with
      | none =>
        rw [Option.getD_none, FNode.valueAt_emptyNode]
        constructor
        · intro h
          cases h
        · intro h
          obtain ⟨c, hc, rfl⟩ := List.mem_map.mp (hm.all k r v h)
          have hc' := (find_eq_some_iff hsorted).mpr ((hmem c.1 c.2.2).mpr ⟨c, hc, rfl, rfl⟩)
          rw [hfind] at hc'
          cases hc'
      | some m =>
        obtain ⟨c, hc, rfl, rfl⟩ := (hmem k m).mp ((find_eq_some_iff hsorted).mp hfind)
        rw [Option.getD_some, (hm.holds c hc).leaves, List.append_assoc]
        rfl

/-! ### The walk -/

/-- With so many steps the walk reads entries whose keys are no longer than some length. -/
def Reads (V : Type) (fuel : ℕ) : Prop :=
  ∀ (p : List ChildKey) (bs rest : List (Text × Json V)) (depth longest : ℕ), Block p bs →
    bs ≠ [] → (∀ e ∈ rest, ¬ serverCacheKey p <+: e.1) → Shallow p bs depth →
    (serverCacheKey p).length ≤ longest → (∀ e ∈ bs, e.1.length ≤ longest) →
    2 * longest + bs.length + 2 ≤ fuel + 2 * (serverCacheKey p).length →
    ∃ json n, internalNestedDataFromIterator fuel (bs ++ rest) (serverCacheKey p) =
      some (json, rest) ∧ nodeFrom json depth = some n ∧ Holds p bs n

/-- The same of the loop over the children, where the names in the dictionary are done. -/
def LoopReads (V : Type) (fuel : ℕ) : Prop :=
  ∀ (p : List ChildKey) (bs rest : List (Text × Json V)) (dict : List (Text × Json V))
    (depth longest : ℕ), Block p bs → (∀ v, (serverCacheKey p, .leaf v) ∉ bs) →
    (∀ e ∈ rest, ¬ serverCacheKey p <+: e.1) → Shallow p bs depth →
    (serverCacheKey p).length ≤ longest → (∀ e ∈ bs, e.1.length ≤ longest) →
    (∀ k r v, (serverCacheKey (p ++ k :: r), .leaf v) ∈ bs → k.name ∉ dict.map Prod.fst) →
    2 * longest + bs.length + 1 ≤ fuel + 2 * (serverCacheKey p).length →
    ∃ made, nestedLoop fuel (bs ++ rest) (serverCacheKey p) dict =
      some (.dictionary (dict ++ made.map fun c => (c.1.name, c.2.1)), rest) ∧
        Made p bs (depth + 1) made

lemma Holds.congr (h : Holds p bs n)
    (hes : ∀ r v, (serverCacheKey (p ++ r), Json.leaf v) ∈ es ↔
      (serverCacheKey (p ++ r), Json.leaf v) ∈ bs) : Holds p es n where
  canonical := h.canonical
  nonempty := h.nonempty
  leaves r v := (h.leaves r v).trans (hes r v).symm

/-- **A child more** that is read before the others. -/
lemma Made.cons {made : List (ChildKey × Json V × FNode ChildKey V)} {json : Json V}
    (hm : Made p bs depth made) (hchild : Block (p ++ [k]) cs)
    (hnot : ∀ e ∈ bs, ¬ serverCacheKey (p ++ [k]) <+: e.1) (hjson : nodeFrom json depth = some n)
    (hn : Holds (p ++ [k]) cs n) : Made p (cs ++ bs) depth ((k, json, n) :: made) := by
  have hbelow : ∀ r v, (serverCacheKey (p ++ k :: r), Json.leaf v) ∉ bs := by
    intro r v hmem
    refine hnot _ hmem ?_
    rw [serverCacheKey_begins, List.append_cons p k r]
    exact List.prefix_append _ _
  have hcs : ∀ k' r v, (serverCacheKey (p ++ k' :: r), Json.leaf v) ∈ cs → k' = k := by
    intro k' r v hmem
    obtain ⟨s, w, heq⟩ := hchild.leaves _ hmem
    have hpath := serverCacheKey_inj.mp (congrArg Prod.fst heq)
    rw [List.append_assoc] at hpath
    exact (List.cons.inj (List.append_cancel_left hpath)).1
  have hfresh : ∀ c ∈ made, c.1 ≠ k := by
    rintro c hc rfl
    have hc' := hm.holds c hc
    obtain ⟨r, v, hv⟩ := hc'.canonical.exists_value hc'.nonempty
    have hmem := (hc'.leaves r v).mp hv
    rw [List.append_assoc] at hmem
    exact hbelow r v hmem
  refine ⟨?_, ?_, ?_, ?_⟩
  · exact List.forall_mem_cons.mpr ⟨hjson, hm.node⟩
  · refine List.forall_mem_cons.mpr ⟨hn.congr fun r v => ?_, fun c hc => ?_⟩
    · rw [List.append_assoc, List.mem_append]
      exact or_iff_left (hbelow r v)
    · refine (hm.holds c hc).congr fun r v => ?_
      rw [List.append_assoc, List.mem_append]
      exact or_iff_right fun hmem => hfresh c hc (hcs _ r v hmem)
  · intro k' r v hmem
    rw [List.map_cons]
    rcases List.mem_append.mp hmem with hmem | hmem
    · rw [hcs k' r v hmem]
      exact List.mem_cons_self
    · exact List.mem_cons_of_mem _ (hm.all k' r v hmem)
  · refine List.nodup_cons.mpr ⟨fun hmem => ?_, hm.nodup⟩
    obtain ⟨c, hc, hk⟩ := List.mem_map.mp hmem
    exact hfresh c hc hk

lemma setValue_of_notMem {dict : List (Text × Json V)} {childValue : Json V} {childName : Text}
    (h : childName ∉ dict.map Prod.fst) :
    setValue dict childValue childName = dict ++ [(childName, childValue)] := by
  rw [setValue, List.filter_eq_self.mpr]
  intro e he
  exact decide_eq_true fun heq => h (heq ▸ List.mem_map_of_mem he)

/-- The loop at its end. -/
lemma nestedLoop_rest (p : List ChildKey) (dict : List (Text × Json V))
    (hrest : ∀ e ∈ rest, ¬ serverCacheKey p <+: e.1) :
    nestedLoop (fuel + 1) rest (serverCacheKey p) dict = some (.dictionary dict, rest) := by
  cases rest with
  | nil => rw [nestedLoop]
  | cons e rest =>
    obtain ⟨key, value⟩ := e
    rw [nestedLoop, if_neg (hrest (key, value) (by simp))]

/-- The loop at an entry below a child. -/
lemma nestedLoop_child (p r : List ChildKey) (k : ChildKey) (value : Json V)
    (es dict : List (Text × Json V)) :
    nestedLoop (fuel + 1) ((serverCacheKey (p ++ k :: r), value) :: es) (serverCacheKey p) dict =
      (internalNestedDataFromIterator fuel ((serverCacheKey (p ++ k :: r), value) :: es)
        (serverCacheKey (p ++ [k]))).bind fun s =>
          nestedLoop fuel s.2 (serverCacheKey p) (setValue dict s.1 k.name) := by
  have hpre : serverCacheKey p <+: serverCacheKey (p ++ k :: r) :=
    serverCacheKey_begins.mpr (List.prefix_append _ _)
  rw [nestedLoop, if_pos hpre]
  dsimp only
  rw [childName_eq, serverCacheKey_child]

/-- **One turn of the loop**: the first child is read, and then the others. -/
lemma loopReads_succ (hw : Reads V fuel) (hl : LoopReads V fuel) : LoopReads V (fuel + 1) := by
  intro p bs rest dict depth longest hbs hinner hrest hdepth hp hlen hdict hfuel
  cases bs with
  | nil =>
    refine ⟨[], ?_, by simp, by simp, by simp, List.nodup_nil⟩
    rw [List.nil_append, List.map_nil, List.append_nil]
    exact nestedLoop_rest p dict hrest
  | cons e es =>
    obtain ⟨r, v, rfl⟩ := hbs.leaves e (by simp)
    cases r with
    | nil =>
      rw [List.append_nil] at hinner
      exact absurd List.mem_cons_self (hinner v)
    | cons k r =>
      have hname : k.name ∉ dict.map Prod.fst := hdict k r v (by simp)
      obtain ⟨cs, bs, heq, hcs, hchild, hothers, hnot⟩ := hbs.exists_child
      have hfirst : (serverCacheKey (p ++ k :: r), Json.leaf v) :: (es ++ rest) =
          cs ++ (bs ++ rest) := by
        rw [← List.cons_append, heq, List.append_assoc]
      have hafter : ∀ e ∈ bs ++ rest, ¬ serverCacheKey (p ++ [k]) <+: e.1 := by
        intro e he hpre
        rcases List.mem_append.mp he with he | he
        · exact hnot e he hpre
        · exact hrest e he ((serverCacheKey_begins.mpr (List.prefix_append _ _)).trans hpre)
      have hin : ∀ e, e ∈ cs ∨ e ∈ bs →
          e ∈ (serverCacheKey (p ++ k :: r), Json.leaf v) :: es := by
        intro e he
        rw [heq]
        exact List.mem_append.mpr he
      have hcount : es.length + 1 = cs.length + bs.length := by
        rw [← List.length_cons, heq, List.length_append]
      have hlonger : (serverCacheKey p).length < (serverCacheKey (p ++ [k])).length := by
        rw [serverCacheKey_append, pathKey_cons]
        simp
      have hk : (serverCacheKey (p ++ [k])).length ≤ longest := by
        have hhead := hlen _ List.mem_cons_self
        dsimp only at hhead
        rw [List.append_cons p k r, serverCacheKey_append, List.length_append] at hhead
        omega
      have hpos : 0 < cs.length := List.length_pos_of_ne_nil hcs
      rw [List.length_cons] at hfuel
      have hshallow : Shallow (p ++ [k]) cs (depth + 1) := by
        intro r v hmem
        rw [List.append_assoc] at hmem
        have hd := hdepth (k :: r) v (hin _ (.inl hmem))
        rw [List.length_cons] at hd
        omega
      obtain ⟨json, n, hread, hjson, hn⟩ := hw (p ++ [k]) cs (bs ++ rest) (depth + 1) longest hchild
        hcs hafter hshallow hk (fun e he => hlen e (hin e (.inl he))) (by omega)
      have hdone : ∀ k' r v, (serverCacheKey (p ++ k' :: r), Json.leaf v) ∈ bs →
          k'.name ∉ (dict ++ [(k.name, json)]).map Prod.fst := by
        intro k' r v hmem
        rw [List.map_append, List.mem_append]
        rintro (hold | hnew)
        · exact hdict k' r v (hin _ (.inr hmem)) hold
        · refine hnot _ hmem (serverCacheKey_begins.mpr ?_)
          have hk : k' = k := ChildKey.name_injective (by simpa using hnew)
          rw [hk, List.append_cons p k r]
          exact List.prefix_append _ _
      obtain ⟨made, hloop, hmade⟩ := hl p bs rest (dict ++ [(k.name, json)]) depth longest hothers
        (fun v hmem => hinner v (hin _ (.inr hmem))) hrest
        (fun r v hmem => hdepth r v (hin _ (.inr hmem))) hp
        (fun e he => hlen e (hin e (.inr he))) hdone (by omega)
      refine ⟨(k, json, n) :: made, ?_, ?_⟩
      · rw [List.cons_append, nestedLoop_child, hfirst, hread, Option.bind_some,
          setValue_of_notMem hname, hloop, List.append_assoc]
        rfl
      · rw [heq]
        exact hmade.cons hchild hnot hjson hn

/-- **The walk at a leaf or at the first child**. -/
lemma reads_succ (hl : LoopReads V fuel) : Reads V (fuel + 1) := by
  intro p bs rest depth longest hbs hne hrest hdepth hp hlen hfuel
  cases bs with
  | nil => exact absurd rfl hne
  | cons e es =>
    obtain ⟨r, v, rfl⟩ := hbs.leaves e (by simp)
    cases r with
    | nil =>
      have hes : es = [] := by
        refine List.eq_nil_iff_forall_not_mem.mpr fun e he => ?_
        obtain ⟨s, w, rfl⟩ := hbs.leaves e (List.mem_cons_of_mem _ he)
        have hnil : s = [] := hbs.lone (p ++ []) s v w (by simp) (by simp [he])
        have hafter := (sorted_cons.mp hbs.sorted).1 _ he
        rw [hnil, Std.ReflOrd.compare_self] at hafter
        cases hafter
      subst hes
      have hd := hdepth [] v (by simp)
      refine ⟨.leaf v, .leaf v, ?_, ?_, .leaf v, rfl, ?_⟩
      · rw [List.append_nil, List.singleton_append, internalNestedDataFromIterator, if_pos rfl]
      · rw [nodeFrom, if_neg (by omega)]
      · intro r w
        rw [List.append_nil, List.mem_singleton, Prod.mk.injEq, serverCacheKey_inj]
        cases r with
        | nil => simp [FNode.valueAt_leaf, eq_comm]
        | cons k r =>
          rw [FNode.valueAt_cons, FNode.getImmediateChild, FNode.valueAt_emptyNode]
          simp
    | cons k r =>
      have hinner : ∀ w, (serverCacheKey p, Json.leaf w) ∉
          (serverCacheKey (p ++ k :: r), Json.leaf v) :: es := by
        intro w hmem
        cases hbs.lone p (k :: r) w v hmem (by simp)
      obtain ⟨made, hloop, hmade⟩ := hl p _ rest [] depth longest hbs hinner hrest hdepth hp
        hlen (by simp) (by omega)
      obtain ⟨n, hn, hholds⟩ := hmade.exists_node hbs hne hinner hdepth
      refine ⟨_, n, ?_, hn, hholds⟩
      have hkey : serverCacheKey (p ++ k :: r) ≠ serverCacheKey p := by
        rw [Ne, serverCacheKey_inj]
        simp
      rw [List.cons_append, internalNestedDataFromIterator, if_neg hkey, ← List.cons_append, hloop]
      rfl

lemma reads_and_loopReads (V : Type) (fuel : ℕ) : Reads V fuel ∧ LoopReads V fuel := by
  induction fuel with
  | zero =>
    constructor
    · intro p bs rest depth longest _ _ _ _ hp _ hfuel
      omega
    · intro p bs rest dict depth longest _ _ _ _ hp _ _ hfuel
      omega
  | succ fuel ih => exact ⟨reads_succ ih.2, loopReads_succ ih.1 ih.2⟩

/-! ### Reading at a path -/

variable {e : FLevelDBStorageEngine V} {f : Leaves ChildKey V}

lemma Stored.mem_entries (he : Stored e f) (q : List ChildKey) (v : V) :
    (serverCacheKey q, Json.leaf v) ∈ e.serverCacheDB.entries ↔ f q = some v := by
  rw [← dataForKey_eq_some_iff, he.data]
  simp

/-- The entries of a store below a path. -/
lemma Stored.mem_range (he : Stored e f) (path r : List ChildKey) (v : V) :
    (serverCacheKey (path ++ r), Json.leaf v) ∈
        e.serverCacheDB.entries.filter (fun e => serverCacheKey path <+: e.1) ↔
      f (path ++ r) = some v := by
  have hpre : serverCacheKey path <+: serverCacheKey (path ++ r) :=
    serverCacheKey_begins.mpr (List.prefix_append _ _)
  rw [List.mem_filter, and_iff_left (decide_eq_true hpre), he.mem_entries]

lemma Stored.block (he : Stored e f) (path : List ChildKey) :
    Block path (e.serverCacheDB.entries.filter fun e => serverCacheKey path <+: e.1) := by
  refine ⟨e.serverCacheDB.sorted.sublist List.filter_sublist, ?_, ?_⟩
  · rintro ⟨key, json⟩ hmem
    obtain ⟨hentry, hpre⟩ := List.mem_filter.mp hmem
    have hpre' : serverCacheKey path <+: key := of_decide_eq_true hpre
    have hroot : serverCacheKey [] <+: serverCacheKey path :=
      serverCacheKey_begins.mpr List.nil_prefix
    obtain ⟨q, hq⟩ := he.keys _ hentry (hroot.trans hpre')
    dsimp only at hq
    subst hq
    obtain ⟨r, rfl⟩ := serverCacheKey_begins.mp hpre'
    have hdata := dataForKey_eq_some_iff.mpr hentry
    rw [he.data] at hdata
    obtain ⟨v, -, rfl⟩ := Option.map_eq_some_iff.mp hdata
    exact ⟨r, v, rfl⟩
  · intro q r v w hv hw
    have hv' := (he.mem_entries q v).mp (List.mem_of_mem_filter hv)
    exact he.lone q r v w hv' ((he.mem_entries (q ++ r) w).mp (List.mem_of_mem_filter hw))

lemma length_le_steps (es : List (Text × Json V)) :
    ∃ longest, (∀ e ∈ es, e.1.length ≤ longest) ∧ 2 * longest + es.length + 2 = steps es := by
  induction es with
  | nil => exact ⟨0, by simp, rfl⟩
  | cons e es ih =>
    obtain ⟨longest, hlen, hsteps⟩ := ih
    refine ⟨e.1.length + longest, ?_, ?_⟩
    · refine List.forall_mem_cons.mpr ⟨Nat.le_add_right _ _, fun f hf => ?_⟩
      have hf' := hlen f hf
      omega
    · rw [steps] at hsteps ⊢
      rw [List.map_cons, List.sum_cons, List.length_cons]
      omega

/-- **Reading at a path** makes the node with the leaves below it. -/
lemma Stored.serverCacheAtPath (he : Stored e f) (path : List ChildKey)
    (hdepth : ∀ r v, f (path ++ r) = some v → r.length ≤ kFirebaseMaxObjectDepth) :
    ∃ n, e.serverCacheAtPath path = some n ∧ n.Canonical ChildKey.compare ∧
      n.valueAt ChildKey.compare = Overwrite.below f path := by
  obtain ⟨rest, hseek, hrest⟩ := PrefixRange.seek_eq e.serverCacheDB.sorted (serverCacheKey path)
  have hblock := he.block path
  have hmem := he.mem_range path
  rw [FLevelDBStorageEngine.serverCacheAtPath, internalNestedDataForPath, hseek]
  set bs := e.serverCacheDB.entries.filter fun e => serverCacheKey path <+: e.1 with hbs
  by_cases hne : bs = []
  · have hnothing : Overwrite.below f path = fun _ => none := by
      funext r
      refine Option.eq_none_iff_forall_ne_some.mpr fun v hv => ?_
      have hv' := (hmem r v).mpr hv
      rw [hne] at hv'
      cases hv'
    refine ⟨FNode.emptyNode, ?_, FNode.canonical_emptyNode, ?_⟩
    · rw [hne, List.nil_append]
      cases rest with
      | nil => rfl
      | cons e rest =>
        obtain ⟨key, value⟩ := e
        dsimp only
        rw [if_neg (hrest (key, value) (by simp))]
        rfl
    · rw [FNode.valueAt_emptyNode, hnothing]
  · obtain ⟨longest, hlen, hsteps⟩ := length_le_steps e.serverCacheDB.entries
    have hcount : bs.length ≤ e.serverCacheDB.entries.length := List.length_filter_le _ _
    obtain ⟨first, hfirst⟩ := List.exists_mem_of_ne_nil bs hne
    have hp : (serverCacheKey path).length ≤ longest := by
      have hpre : serverCacheKey path <+: first.1 :=
        of_decide_eq_true (List.mem_filter.mp hfirst).2
      exact hpre.length_le.trans (hlen _ (List.mem_of_mem_filter hfirst))
    obtain ⟨json, n, hread, hjson, hn⟩ := (reads_and_loopReads V (steps e.serverCacheDB.entries)).1
      path bs rest 0 longest hblock hne hrest
      (fun r v h => by rw [Nat.zero_add]; exact hdepth r v ((hmem r v).mp h)) hp
      (fun e he => hlen e (List.mem_of_mem_filter he)) (by omega)
    refine ⟨n, ?_, hn.canonical, funext fun r => Option.ext fun v => ?_⟩
    · obtain ⟨e', es, hcons⟩ := List.exists_cons_of_ne_nil hne
      have hpre : serverCacheKey path <+: e'.1 := by
        have he' : e' ∈ bs := by simp [hcons]
        exact of_decide_eq_true (List.mem_filter.mp he').2
      rw [hcons, List.cons_append] at hread ⊢
      dsimp only
      rw [if_pos hpre, hread]
      exact hjson
    · rw [hn.leaves, hmem]
      rfl

/-- What is read for some keys: the children for them. -/
def ofKeys (f : Leaves ChildKey V) (keys path : List ChildKey) : Leaves ChildKey V
  | [] => none
  | k :: r => if k ∈ keys then f (path ++ k :: r) else none

/-- **Reading for some keys** makes the node with the children for them. -/
lemma Stored.serverCacheForKeys (he : Stored e f) (keys path : List ChildKey)
    (hdepth : ∀ q v, f q = some v → q.length ≤ kFirebaseMaxObjectDepth) :
    ∃ cs, e.serverCacheForKeys keys path = some (.children cs) ∧
      (FNode.children cs).Canonical ChildKey.compare ∧
        (FNode.children cs).valueAt ChildKey.compare = ofKeys f keys path := by
  induction keys using List.reverseRecOn with
  | nil =>
    refine ⟨[], rfl, FNode.canonical_emptyNode, FNode.valueAt_emptyNode.trans ?_⟩
    funext q
    cases q <;> simp [ofKeys]
  | append_singleton keys key ih =>
    obtain ⟨cs, hcs, hcanonical, hvalue⟩ := ih
    have hkey : ∀ r v, f (path ++ [key] ++ r) = some v → r.length ≤ kFirebaseMaxObjectDepth := by
      intro r v hv
      have hlen := hdepth _ v hv
      rw [List.length_append] at hlen
      omega
    obtain ⟨n, hn, hncanonical, hnvalue⟩ := he.serverCacheAtPath (path ++ [key]) hkey
    have hread : e.serverCacheForKeys (keys ++ [key]) path =
        some ((FNode.children cs).updateImmediateChild ChildKey.compare key n) := by
      rw [FLevelDBStorageEngine.serverCacheForKeys] at hcs ⊢
      rw [List.foldlM_append, hcs, Option.bind_eq_bind, Option.bind_some, List.foldlM_cons, hn]
      rfl
    have hchildren : ∃ ds, (FNode.children cs).updateImmediateChild ChildKey.compare key n =
        .children ds := by
      rw [FNode.updateImmediateChild]
      split <;> exact ⟨_, rfl⟩
    obtain ⟨ds, hds⟩ := hchildren
    refine ⟨ds, hread.trans (congrArg some hds), ?_, ?_⟩
    · rw [← hds]
      exact hcanonical.updateImmediateChild hncanonical key
    · funext q
      cases q with
      | nil => rfl
      | cons k r =>
        have hold := congrFun hvalue (k :: r)
        rw [← hds, FNode.valueAt_cons, FNode.getImmediateChild_updateImmediateChild hcanonical]
        rw [FNode.valueAt_cons] at hold
        by_cases hk : k = key
        · subst hk
          rw [if_pos rfl, hnvalue, Overwrite.below, ofKeys, if_pos (by simp), List.append_assoc]
          rfl
        · rw [if_neg hk, hold, ofKeys, ofKeys]
          simp [hk]

/-! ### Runs -/

/-- A node that was made from a value without priorities, not too deep under its path; neither has
a negative zero for a key. -/
structure Placed (V : Type) where
  node : FNode ChildKey V
  path : List ChildKey
  canonical : node.Canonical ChildKey.compare
  shallow : path.length + node.height ≤ kFirebaseMaxObjectDepth

structure Update (V : Type) extends Placed V where
  merge : Bool

def update (e : FLevelDBStorageEngine V) (u : Update V) : FLevelDBStorageEngine V :=
  e.updateServerCache u.node u.path u.merge

/-- Nothing is on the device. -/
def empty : FLevelDBStorageEngine V := ⟨⟨[], sorted_nil⟩, ⟨[], sorted_nil⟩⟩

/-- What a run of updates does to the tree. -/
def updates (f : Leaves ChildKey V) (us : List (Update V)) : Leaves ChildKey V :=
  us.foldl (fun f u => updated f u.node u.path u.merge) f

lemma length_le_height {n : FNode ChildKey V} (hn : n.Canonical ChildKey.compare)
    {r : List ChildKey} {v : V} (h : n.valueAt ChildKey.compare r = some v) :
    r.length ≤ n.height := by
  induction hn generalizing r with
  | leaf w =>
    cases r with
    | nil => exact Nat.zero_le _
    | cons k r =>
      rw [FNode.valueAt_cons, FNode.getImmediateChild, FNode.valueAt_emptyNode] at h
      cases h
  | @children cs hs _ _ ih =>
    cases r with
    | nil => exact Nat.zero_le _
    | cons k r =>
      rw [FNode.valueAt_cons, FNode.getImmediateChild] at h
      cases hfind : find ChildKey.compare k cs with
      | none =>
        rw [hfind, Option.getD_none, FNode.valueAt_emptyNode] at h
        cases h
      | some m =>
        rw [hfind, Option.getD_some] at h
        have hmem := (find_eq_some_iff hs).mp hfind
        have hr := ih (k, m) hmem h
        have hlt := FNode.height_lt hmem
        rw [FNode.height, List.length_cons]
        omega

/-- A node that an update saves is not too deep under its path. -/
lemma shallow_targets {node : FNode ChildKey V} {path : List ChildKey} {merge : Bool}
    (hshallow : path.length + node.height ≤ kFirebaseMaxObjectDepth)
    {w : List ChildKey × FNode ChildKey V} (hw : w ∈ targets node path merge) :
    w.1.length + w.2.height ≤ kFirebaseMaxObjectDepth := by
  cases merge
  · rw [List.mem_singleton.mp hw]
    exact hshallow
  · obtain ⟨c, hc, rfl⟩ := List.mem_map.mp hw
    cases node with
    | leaf v => cases hc
    | children cs =>
      have hlt : c.2.height < FNode.heights cs := FNode.height_lt hc
      rw [FNode.height] at hshallow
      rw [List.length_append, List.length_singleton]
      dsimp only
      omega

/-- Leaves that are not too deep stay so. -/
lemma shallow_updates {f : Leaves ChildKey V} (us : List (Update V))
    (hf : ∀ q v, f q = some v → q.length ≤ kFirebaseMaxObjectDepth) (q : List ChildKey) (v : V)
    (h : updates f us q = some v) : q.length ≤ kFirebaseMaxObjectDepth := by
  induction us generalizing f with
  | nil => exact hf q v h
  | cons u us ih =>
    refine ih (fun q v h => ?_) h
    rcases eq_some_of_puts h with h | ⟨w, hw, r, rfl, hr⟩
    · unfold clear at h
      split at h
      · cases h
      · exact hf q v h
    · obtain ⟨t, ht, rfl⟩ := List.mem_map.mp hw
      have hshallow := shallow_targets u.shallow ht
      have hr' := length_le_height (targets_canonical u.canonical ht) hr
      rw [List.length_append]
      dsimp only
      omega

/-- **A run keeps the store**. -/
lemma stored_updates (he : Stored e f) (us : List (Update V)) :
    Stored (us.foldl update e) (updates f us) := by
  induction us generalizing e f with
  | nil => exact he
  | cons u us ih => exact ih (he.updateServerCache u.canonical u.path u.merge)

lemma stored_empty : Stored (empty : FLevelDBStorageEngine V) fun _ => none where
  data _ := rfl
  keys _ h := by cases h
  lone _ _ _ _ h := by cases h

end Solta.FLevelDBStorageEngine
