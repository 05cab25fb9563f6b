import Solta.Database.Keys
import Solta.Database.Node

/-!
Nodes and what they are made from.

What the app writes, what the server sends and what is kept on the device is a JSON value. A node
is made from it, and gives one back: for export a dictionary, and for the app an array where the
children are numbered without wide gaps. Values with `.value`, `.priority` or `.sv` in them, which
the app does not write, are refused here, and so are keys that are negative zeros.
-/

namespace Solta

open Lib SortedList

/-- A key a child may have. Negative zeros, which take the place of other keys, are left out. -/
abbrev ChildKey : Type := {key : FUtilities.Key // FValidation.isValidKey key.1}

inductive Json (V : Type)
  | null
  | leaf (value : V)
  | array (elements : List (Json V))
  | dictionary (entries : List (Text × Json V))

namespace ChildKey

def compare (a b : ChildKey) : Ordering := FUtilities.Key.compare a.1 b.1

instance : Std.TransCmp compare where
  eq_swap {a b} := by
    have hswap : FUtilities.Key.compare a.1 b.1 = (FUtilities.Key.compare b.1 a.1).swap :=
      Std.OrientedCmp.eq_swap
    exact hswap
  isLE_trans {a b c} hab hbc := by
    have htrans : (FUtilities.Key.compare a.1 b.1).isLE →
        (FUtilities.Key.compare b.1 c.1).isLE → (FUtilities.Key.compare a.1 c.1).isLE :=
      Std.TransCmp.isLE_trans
    exact htrans hab hbc

instance : Std.LawfulEqCmp compare where
  compare_self {a} := by
    have hself : FUtilities.Key.compare a.1 a.1 = .eq := Std.ReflCmp.compare_self
    exact hself
  eq_of_compare {a b} h := by
    have hkey : FUtilities.Key.compare a.1 b.1 = .eq := h
    exact Subtype.ext (Std.LawfulEqCmp.eq_of_compare hkey)

def name (key : ChildKey) : Text := key.1.1

def ofText (s : Text) : Option ChildKey :=
  if h : ¬ (FUtilities.negative s ∧ FUtilities.tryParseStringToInt s = some 0) ∧
      FValidation.isValidKey s then
    some ⟨⟨s, h.1⟩, h.2⟩
  else none

lemma name_injective : Function.Injective name := fun _ _ h => Subtype.ext (Subtype.ext h)

@[simp] lemma ofText_name (key : ChildKey) : ofText key.name = some key := by
  rw [ofText, dif_pos ⟨key.1.2, key.2⟩]
  rfl

/-- `%i`. -/
def number (i : ℕ) : Text := Nat.toDigits 10 i

lemma number_spec (i : ℕ) : number i ≠ [] ∧ ∀ c ∈ number i, c.isDigit :=
  ⟨Nat.toDigits_ne_nil, fun _ hc => Nat.isDigit_of_mem_toDigits (by decide) (by decide) hc⟩

lemma ne_dash_of_isDigit {c : Char} (h : c.isDigit) : c ≠ '-' := by
  rintro rfl
  revert h
  decide

/-- The key of an element of an array. -/
def ofIndex (i : ℕ) : ChildKey :=
  ⟨⟨number i, by
    rintro ⟨hneg, -⟩
    obtain ⟨-, hall⟩ := number_spec i
    have hhead : (number i).head? = some '-' := by simpa [FUtilities.negative] using hneg
    exact ne_dash_of_isDigit (hall _ (List.mem_of_head? hhead)) rfl⟩, by
    obtain ⟨hne, hall⟩ := number_spec i
    refine FValidation.isValidKey_iff.mpr ⟨hne, fun c hc hmem => ?_⟩
    have hdigit := hall c hc
    have hnone : FValidation.kInvalidKeyCharacters.all (!·.isDigit) = true := by decide
    rw [List.all_eq_true] at hnone
    have hc' := hnone c hmem
    rw [hdigit] at hc'
    cases hc'⟩

@[simp] lemma name_ofIndex (i : ℕ) : (ofIndex i).name = number i := rfl

lemma ofIndex_injective : Function.Injective ofIndex := by
  intro i j h
  have hname : number i = number j := congrArg name h
  rw [← Nat.ofDigitChars_ten_toDigits (n := i), ← Nat.ofDigitChars_ten_toDigits (n := j)]
  exact congrArg (Nat.ofDigitChars 10 · 0) hname

end ChildKey

/-- `intForString`, of the digits 0 to 9. -/
def FUtilities.intForString (s : Text) : Option ℕ :=
  if s ≠ [] ∧ s.all Char.isDigit then some (Nat.ofDigitChars 10 s 0) else none

namespace ChildKey

lemma digitChar_of_isDigit {c : Char} (h : c.isDigit) :
    c.toNat - '0'.toNat < 10 ∧ (c.toNat - '0'.toNat).digitChar = c := by
  obtain ⟨hlow, hhigh⟩ := FUtilities.digit_bounds h
  have hlt : c.toNat - '0'.toNat < 10 := by omega
  refine ⟨hlt, Char.toNat_inj.mp ?_⟩
  have hzero : '0'.toNat = 48 := rfl
  rw [Nat.toNat_digitChar_of_lt_ten hlt]
  omega

/-- Digits are a number's where they do not begin with a zero. -/
lemma number_of_intForString {s : Text} {n : ℕ} (h : FUtilities.intForString s = some n)
    (hzero : s.head? ≠ some '0' ∨ s.length ≤ 1) : number n = s := by
  unfold FUtilities.intForString at h
  split at h
  · rename_i hs
    obtain ⟨hne, hall⟩ := hs
    cases h
    induction s using List.reverseRecOn with
    | nil => exact absurd rfl hne
    | append_singleton s c ih =>
      have hc : c.isDigit := List.all_eq_true.mp hall c (by simp)
      obtain ⟨hlt, hchar⟩ := digitChar_of_isDigit hc
      rw [Nat.ofDigitChars_append, Nat.ofDigitChars_cons, Nat.ofDigitChars_nil, number]
      cases s with
      | nil =>
        rw [Nat.ofDigitChars_nil, Nat.mul_zero, Nat.zero_add, Nat.toDigits_of_lt_base hlt, hchar]
        rfl
      | cons d s =>
        have hhead : (d :: s).head? ≠ some '0' := by
          rcases hzero with hzero | hlen
          · exact hzero
          · simp at hlen
        have hdigits : (d :: s).all Char.isDigit := by
          rw [List.all_append, Bool.and_eq_true] at hall
          exact hall.1
        have hnumber := ih (.inl hhead) (by simp) hdigits
        have hpos : 0 < Nat.ofDigitChars 10 (d :: s) 0 := by
          refine Nat.pos_of_ne_zero fun h0 => hhead ?_
          rw [← hnumber, h0]
          rfl
        rw [← Nat.toDigits_append_toDigits (by decide) hpos hlt, Nat.toDigits_of_lt_base hlt, hchar]
        exact congrArg (· ++ [c]) hnumber
  · cases h

end ChildKey

/-! ### From values to nodes and back -/

namespace FNode

variable {V : Type}

mutual

/-- How deep the leaves of a node are. -/
def height : FNode ChildKey V → ℕ
  | leaf _ => 0
  | children cs => heights cs

def heights : List (ChildKey × FNode ChildKey V) → ℕ
  | [] => 0
  | (_, n) :: cs => max (n.height + 1) (heights cs)

end

lemma height_lt {cs : List (ChildKey × FNode ChildKey V)} {e : ChildKey × FNode ChildKey V}
    (h : e ∈ cs) : e.2.height < heights cs := by
  induction cs with
  | nil => cases h
  | cons f cs ih =>
    obtain ⟨k, n⟩ := f
    rw [heights]
    rcases List.mem_cons.mp h with rfl | h
    · dsimp only
      omega
    · have hlt := ih h
      omega

/-- What `valForExport:` finds out about the keys. -/
structure Keys where
  numKeys : ℕ
  maxKey : ℕ
  allIntegerKeys : Bool

def scanKey (s : Keys) (key : Text) : Keys :=
  let s := { s with numKeys := s.numKeys + 1 }
  if !s.allIntegerKeys then s
  else if key.head? = some '0' ∧ 1 < key.length then { s with allIntegerKeys := false }
  else match FUtilities.intForString key with
    | some keyAsInt => { s with maxKey := max s.maxKey keyAsInt }
    | none => { s with allIntegerKeys := false }

/-- The children as an array, or as they are. -/
def arrange (exp : Bool) (obj : List (Text × Json V)) : Json V :=
  let s := (obj.map Prod.fst).foldl scanKey ⟨0, 0, true⟩
  if !exp && s.allIntegerKeys && s.maxKey < 2 * s.numKeys then
    .array ((List.range (s.maxKey + 1)).map fun i => (obj.lookup (ChildKey.number i)).getD .null)
  else .dictionary obj

mutual

/-- Of a node with no priorities in it. -/
def valForExport (exp : Bool) : FNode ChildKey V → Json V
  | leaf v => .leaf v
  | children [] => .null
  | children (e :: cs) => arrange exp (valsForExport exp (e :: cs))

def valsForExport (exp : Bool) : List (ChildKey × FNode ChildKey V) → List (Text × Json V)
  | [] => []
  | (key, childNode) :: cs => (key.name, childNode.valForExport exp) :: valsForExport exp cs

end

end FNode

namespace FSnapshotUtilities

open FNode

variable {V : Type}

def kFirebaseMaxObjectDepth : ℕ := 1000

/-- The node with some children, which stand in no order. -/
def withChildren (children : List (ChildKey × FNode ChildKey V)) : Option (FNode ChildKey V) :=
  if children.isEmpty then some emptyNode
  else (FImmutableSortedDictionary.fromDictionary children).map
    fun d : FImmutableSortedDictionary ChildKey (FNode ChildKey V) ChildKey.compare =>
      .children d.entries

mutual

/-- `nodeFrom:atDepth:`, none where it throws, and none for entries and keys that are left out. -/
def nodeFrom : Json V → ℕ → Option (FNode ChildKey V)
  | .null, depth => if kFirebaseMaxObjectDepth < depth then none else some emptyNode
  | .leaf v, depth => if kFirebaseMaxObjectDepth < depth then none else some (leaf v)
  | .array aval, depth =>
    if kFirebaseMaxObjectDepth < depth then none
    else (elementsFrom aval 0 (depth + 1)).bind withChildren
  | .dictionary dval, depth =>
    if kFirebaseMaxObjectDepth < depth then none
    else (entriesFrom dval (depth + 1)).bind withChildren

def elementsFrom : List (Json V) → ℕ → ℕ → Option (List (ChildKey × FNode ChildKey V))
  | [], _, _ => some []
  | val :: aval, i, depth =>
    (nodeFrom val depth).bind fun childNode =>
      (elementsFrom aval (i + 1) depth).map fun children =>
        if childNode.isEmpty then children else (ChildKey.ofIndex i, childNode) :: children

def entriesFrom : List (Text × Json V) → ℕ → Option (List (ChildKey × FNode ChildKey V))
  | [], _ => some []
  | (keyId, val) :: dval, depth =>
    (ChildKey.ofText keyId).bind fun key =>
      (nodeFrom val depth).bind fun childNode =>
        (entriesFrom dval depth).map fun children =>
          if childNode.isEmpty then children else (key, childNode) :: children

end

/-! ### What is exported makes the same node -/

/-- Children with different keys stand in order in the node. -/
lemma exists_withChildren {children : List (ChildKey × FNode ChildKey V)}
    (hne : children.Pairwise fun e f => e.1 ≠ f.1) :
    ∃ cs, withChildren children = some (.children cs) ∧ Sorted ChildKey.compare cs ∧
      cs.Perm children := by
  unfold withChildren
  split
  · rename_i hempty
    rw [List.isEmpty_iff.mp hempty]
    exact ⟨[], rfl, sorted_nil, List.Perm.refl _⟩
  · have hcompare : children.Pairwise fun e f => ChildKey.compare e.1 f.1 ≠ .eq :=
      hne.imp fun hab heq => hab (Std.LawfulEqCmp.eq_of_compare heq)
    obtain ⟨d, hd, hperm⟩ := FImmutableSortedDictionary.exists_fromDictionary hcompare
    exact ⟨d.entries, by rw [hd, Option.map_some], d.sorted_entries, hperm⟩

lemma ne_of_sorted {cs : List (ChildKey × FNode ChildKey V)} (hs : Sorted ChildKey.compare cs) :
    cs.Pairwise fun e f => e.1 ≠ f.1 := by
  refine hs.imp fun hlt heq => ?_
  have hself : ∀ k, ChildKey.compare k k = .eq := fun k => Std.ReflCmp.compare_self
  rw [heq, hself] at hlt
  cases hlt

/-- Children in order are what a dictionary of them in any order lists. -/
lemma withChildren_of_perm {children cs : List (ChildKey × FNode ChildKey V)}
    (hs : Sorted ChildKey.compare cs) (h : children.Perm cs) :
    withChildren children = some (.children cs) := by
  have hne : children.Pairwise fun e f => e.1 ≠ f.1 :=
    h.symm.pairwise (ne_of_sorted hs) fun hab => Ne.symm hab
  obtain ⟨ds, hds, hsorted, hperm⟩ := exists_withChildren hne
  rw [hds, eq_of_perm hsorted hs (hperm.trans h)]

variable {exp : Bool} {depth : ℕ}

/-- Children that are made from the values of a dictionary. -/
lemma entriesFrom_map {cs : List (ChildKey × Json V × FNode ChildKey V)}
    (hcs : ∀ c ∈ cs, nodeFrom c.2.1 depth = some c.2.2 ∧ c.2.2.isEmpty = false) :
    entriesFrom (cs.map fun c => (c.1.name, c.2.1)) depth =
      some (cs.map fun c => (c.1, c.2.2)) := by
  induction cs with
  | nil => rw [List.map_nil, entriesFrom]; rfl
  | cons c cs ih =>
    obtain ⟨hn, hne⟩ := hcs c (by simp)
    have hrest := ih fun f hf => hcs f (by simp [hf])
    rw [List.map_cons, entriesFrom, ChildKey.ofText_name, Option.bind_some, hn, Option.bind_some,
      hrest, Option.map_some, if_neg (by simp [hne]), List.map_cons]

lemma valsForExport_eq (cs : List (ChildKey × FNode ChildKey V)) :
    valsForExport exp cs = cs.map fun e => (e.1.name, e.2.valForExport exp) := by
  induction cs with
  | nil => rw [valsForExport, List.map_nil]
  | cons e cs ih =>
    obtain ⟨k, n⟩ := e
    rw [valsForExport, ih, List.map_cons]

lemma entriesFrom_valsForExport {cs : List (ChildKey × FNode ChildKey V)}
    (hcs : ∀ e ∈ cs, nodeFrom (e.2.valForExport exp) depth = some e.2 ∧ e.2.isEmpty = false) :
    entriesFrom (valsForExport exp cs) depth = some cs := by
  have hmap : entriesFrom ((cs.map fun e => (e.1, e.2.valForExport exp, e.2)).map fun c =>
      (c.1.name, c.2.1)) depth = _ := entriesFrom_map (List.forall_mem_map.mpr hcs)
  rw [List.map_map, List.map_map] at hmap
  rw [valsForExport_eq]
  exact hmap.trans (congrArg some (List.map_id' cs))

/-- The elements of an array that are not empty. -/
lemma elementsFrom_range {f : ℕ → Json V} {g : ℕ → FNode ChildKey V} {s m : ℕ}
    (h : ∀ i, s ≤ i → i < s + m → nodeFrom (f i) depth = some (g i)) :
    elementsFrom ((List.range' s m).map f) s depth =
      some (((List.range' s m).filter fun i => !(g i).isEmpty).map fun i =>
        (ChildKey.ofIndex i, g i)) := by
  induction m generalizing s with
  | zero => rw [List.range'_zero, List.map_nil, elementsFrom]; rfl
  | succ m ih =>
    have hrest := ih (s := s + 1) fun i hi hlt => h i (by omega) (by omega)
    rw [List.range'_succ, List.map_cons, elementsFrom, h s le_rfl (by omega), Option.bind_some,
      hrest, Option.map_some, List.filter_cons]
    cases (g s).isEmpty <;> rfl

lemma lookup_valsForExport (cs : List (ChildKey × FNode ChildKey V)) (key : ChildKey) :
    (valsForExport exp cs).lookup key.name =
      (find ChildKey.compare key cs).map (FNode.valForExport exp) := by
  induction cs with
  | nil => rw [valsForExport]; rfl
  | cons e cs ih =>
    obtain ⟨k, n⟩ := e
    rw [valsForExport, List.lookup_cons, find, ih]
    by_cases h : key = k
    · subst h
      rw [if_pos Std.ReflCmp.compare_self, beq_self_eq_true]
      rfl
    · have hname : (key.name == k.name) = false :=
        beq_false_of_ne fun hname => h (ChildKey.name_injective hname)
      have hcompare : ChildKey.compare key k ≠ .eq := fun hcompare =>
        h (Std.LawfulEqCmp.eq_of_compare hcompare)
      rw [if_neg hcompare, hname]

lemma scanKey_spec {s : FNode.Keys} {key : Text} (h : (scanKey s key).allIntegerKeys = true) :
    s.allIntegerKeys = true ∧ ∃ i, FUtilities.intForString key = some i ∧
      (key.head? ≠ some '0' ∨ key.length ≤ 1) ∧ (scanKey s key).maxKey = max s.maxKey i := by
  unfold scanKey at h ⊢
  dsimp only at h ⊢
  cases hall : s.allIntegerKeys
  · simp [hall] at h
  · simp only [hall, Bool.not_true, Bool.false_eq_true, if_false] at h ⊢
    by_cases hzero : key.head? = some '0' ∧ 1 < key.length
    · simp [hzero] at h
    · rw [if_neg hzero] at h ⊢
      cases hint : FUtilities.intForString key with
      | none => simp [hint] at h
      | some i => exact ⟨trivial, i, rfl, by rcases not_and_or.mp hzero with h | h <;> grind, rfl⟩

/-- The keys are all numbers up to the greatest. -/
lemma scan_keys {keys : List Text} {s : FNode.Keys}
    (h : (keys.foldl scanKey s).allIntegerKeys = true) :
    s.allIntegerKeys = true ∧ s.maxKey ≤ (keys.foldl scanKey s).maxKey ∧
      ∀ key ∈ keys, ∃ i, FUtilities.intForString key = some i ∧
        (key.head? ≠ some '0' ∨ key.length ≤ 1) ∧ i ≤ (keys.foldl scanKey s).maxKey := by
  induction keys generalizing s with
  | nil => exact ⟨h, le_rfl, by simp⟩
  | cons key keys ih =>
    rw [List.foldl_cons] at h ⊢
    obtain ⟨hall, hmax, hkeys⟩ := ih h
    obtain ⟨hs, i, hint, hzero, hi⟩ := scanKey_spec hall
    rw [hi] at hmax
    refine ⟨hs, (le_max_left _ _).trans hmax, fun k hk => ?_⟩
    rcases List.mem_cons.mp hk with rfl | hk
    · exact ⟨i, hint, hzero, (le_max_right _ _).trans hmax⟩
    · exact hkeys k hk

/-- A child that is exported makes itself again. -/
def Remade (exp : Bool) (depth : ℕ) (cs : List (ChildKey × FNode ChildKey V)) : Prop :=
  ∀ e ∈ cs, nodeFrom (e.2.valForExport exp) depth = some e.2 ∧ e.2.isEmpty = false

/-- **An array** makes the children that it was made from. -/
lemma nodeFrom_array {cs : List (ChildKey × FNode ChildKey V)}
    (hs : Sorted ChildKey.compare cs) (hcs : Remade exp (depth + 1) cs) {maxKey : ℕ}
    (hdepth : depth < kFirebaseMaxObjectDepth)
    (hkeys : ∀ e ∈ cs, ∃ i, e.1 = ChildKey.ofIndex i ∧ i ≤ maxKey) :
    nodeFrom (.array ((List.range (maxKey + 1)).map fun i =>
      ((valsForExport exp cs).lookup (ChildKey.number i)).getD .null)) depth =
        some (.children cs) := by
  have helement : ∀ i, 0 ≤ i → i < 0 + (maxKey + 1) →
      nodeFrom (((valsForExport exp cs).lookup (ChildKey.number i)).getD .null) (depth + 1) =
        some ((find ChildKey.compare (ChildKey.ofIndex i) cs).getD emptyNode) := by
    intro i _ _
    rw [← ChildKey.name_ofIndex, lookup_valsForExport]
    cases hfind : find ChildKey.compare (ChildKey.ofIndex i) cs with
    | none => rw [Option.map_none, Option.getD_none, nodeFrom, if_neg (by omega)]; rfl
    | some n => exact (hcs _ ((find_eq_some_iff hs).mp hfind)).1
  rw [nodeFrom, if_neg (by omega), List.range_eq_range', elementsFrom_range helement,
    Option.bind_some]
  refine withChildren_of_perm hs ((List.perm_ext_iff_of_nodup ?_ ?_).mpr ?_)
  · refine (List.Nodup.filter _ List.nodup_range').map fun i j hij => ?_
    exact ChildKey.ofIndex_injective (congrArg Prod.fst hij)
  · exact hs.imp fun hlt heq => SortedList.ne_of_lt hlt (congrArg Prod.fst heq)
  · rintro ⟨key, n⟩
    simp only [List.mem_map, List.mem_filter, List.mem_range'_1, Prod.mk.injEq]
    constructor
    · rintro ⟨i, ⟨-, hne⟩, rfl, hn⟩
      cases hfind : find ChildKey.compare (ChildKey.ofIndex i) cs with
      | none =>
        rw [hfind] at hne
        cases hne
      | some m =>
        rw [hfind] at hn
        cases hn
        exact (find_eq_some_iff hs).mp hfind
    · intro hmem
      obtain ⟨i, hi, hle⟩ := hkeys _ hmem
      dsimp only at hi
      subst hi
      have hfind := (find_eq_some_iff hs).mpr hmem
      refine ⟨i, ⟨by omega, ?_⟩, rfl, by rw [hfind]; rfl⟩
      rw [hfind, Option.getD_some, (hcs _ hmem).2]
      rfl

/-- **What is exported makes the same node again**, also where children become an array: any node
in order without priorities and negative zeros, up to the depth that is read. -/
theorem nodeFrom_valForExport {n : FNode ChildKey V} (hn : n.Canonical ChildKey.compare)
    (exp : Bool) {depth : ℕ} (hdepth : depth + n.height ≤ kFirebaseMaxObjectDepth) :
    nodeFrom (n.valForExport exp) depth = some n := by
  induction hn generalizing depth with
  | leaf v =>
    rw [FNode.valForExport, nodeFrom, if_neg (by omega)]
  | @children cs hs _ hne ih =>
    cases cs with
    | nil =>
      rw [FNode.valForExport, nodeFrom, if_neg (by omega)]
      rfl
    | cons e cs =>
      rw [FNode.height] at hdepth
      have hcs : Remade exp (depth + 1) (e :: cs) := by
        intro f hf
        have hlt := FNode.height_lt hf
        exact ⟨ih f hf (by omega), hne f hf⟩
      have hlt : depth < kFirebaseMaxObjectDepth := by
        have hlt := FNode.height_lt (List.mem_cons_self (a := e) (l := cs))
        omega
      rw [FNode.valForExport, arrange]
      split
      · rename_i harray
        rw [Bool.and_eq_true, Bool.and_eq_true] at harray
        obtain ⟨-, -, hkeys⟩ := scan_keys harray.1.2
        refine nodeFrom_array hs hcs hlt fun f hf => ?_
        have hmem : f.1.name ∈ (valsForExport exp (e :: cs)).map Prod.fst := by
          rw [valsForExport_eq, List.map_map]
          exact List.mem_map_of_mem hf
        obtain ⟨i, hint, hzero, hi⟩ := hkeys _ hmem
        refine ⟨i, ChildKey.name_injective ?_, hi⟩
        rw [ChildKey.name_ofIndex]
        exact (ChildKey.number_of_intForString hint hzero).symm
      · rw [nodeFrom, if_neg (by omega), entriesFrom_valsForExport hcs, Option.bind_some]
        exact withChildren_of_perm hs (List.Perm.refl _)

/-- The first, second and fourth of four elements. -/
def threeOfFour : FNode ChildKey ℕ :=
  .children [(ChildKey.ofIndex 0, .leaf 5), (ChildKey.ofIndex 1, .leaf 6),
    (ChildKey.ofIndex 3, .leaf 7)]

lemma threeOfFour_canonical : threeOfFour.Canonical ChildKey.compare := by
  refine .children (by decide) ?_ ?_
  · simp only [List.forall_mem_cons]
    exact ⟨.leaf 5, .leaf 6, .leaf 7, by simp⟩
  · simp only [List.forall_mem_cons]
    exact ⟨rfl, rfl, rfl, by simp⟩

theorem nodeFrom_valForExport_threeOfFour :
    threeOfFour.valForExport false = .array [.leaf 5, .leaf 6, .null, .leaf 7] ∧
      nodeFrom (threeOfFour.valForExport false) 0 = some threeOfFour :=
  ⟨by rfl, nodeFrom_valForExport threeOfFour_canonical false (by decide)⟩

end FSnapshotUtilities

end Solta
