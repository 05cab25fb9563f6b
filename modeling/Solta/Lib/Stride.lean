import Mathlib.Data.Finset.Prod
import Mathlib.Data.List.Nodup
import Mathlib.Data.List.ProdSigma
import Mathlib.Order.Interval.Finset.Nat
import Mathlib.Tactic.Ring

/-!
Strided loops over a rectangle, and the row-major addresses they visit.

A pair of nested loops with step `k` visits the points of a grid, column by column; in a
buffer whose rows are `b` apart the point `(x, y)` has the address `x + y * b`. The main
result says when two such loops visit the same addresses. The last part counts the points
that fall into a rectangle.
-/

namespace Lib.Stride

/-- How many multiples of `k` lie below `n`. -/
def count (n k : ℕ) : ℕ := (n + k - 1) / k

/-- The multiples of `k` below `n`, in increasing order. -/
def stride (n k : ℕ) : List ℕ := (List.range (count n k)).map (· * k)

/-- The points that two nested loops with step `k` visit: `x` outside, `y` inside. -/
def grid (w h k : ℕ) : List (ℕ × ℕ) := stride w k ×ˢ stride h k

/-- The addresses of those points in a buffer whose rows are `b` apart. -/
def addresses (w h b k : ℕ) : List ℕ := (grid w h k).map fun p => p.1 + p.2 * b

lemma lt_count_iff {n k i : ℕ} (hk : 0 < k) : i < count n k ↔ i * k < n := by
  unfold count
  rw [Nat.lt_div_iff_mul_lt hk]
  omega

@[simp] lemma length_stride (n k : ℕ) : (stride n k).length = count n k := by
  simp [stride]

lemma mem_stride {n k x : ℕ} (hk : 0 < k) : x ∈ stride n k ↔ x < n ∧ k ∣ x := by
  simp only [stride, List.mem_map, List.mem_range, lt_count_iff hk]
  constructor
  · rintro ⟨i, hi, rfl⟩
    exact ⟨hi, Nat.dvd_mul_left k i⟩
  · rintro ⟨hx, i, rfl⟩
    exact ⟨i, by rwa [Nat.mul_comm], Nat.mul_comm i k⟩

lemma nodup_stride {n k : ℕ} (hk : 0 < k) : (stride n k).Nodup :=
  List.nodup_range.map fun _ _ h => Nat.eq_of_mul_eq_mul_right hk h

lemma pairwise_stride {n k : ℕ} (hk : 0 < k) : (stride n k).Pairwise (· < ·) :=
  List.pairwise_lt_range.map _ fun _ _ h => Nat.mul_lt_mul_of_pos_right h hk

lemma mem_grid {w h k : ℕ} (hk : 0 < k) {p : ℕ × ℕ} :
    p ∈ grid w h k ↔ p.1 < w ∧ p.2 < h ∧ k ∣ p.1 ∧ k ∣ p.2 := by
  obtain ⟨x, y⟩ := p
  simp only [grid, List.mem_product, mem_stride hk]
  tauto

lemma nodup_grid {w h k : ℕ} (hk : 0 < k) : (grid w h k).Nodup :=
  (nodup_stride hk).product (nodup_stride hk)

/-- The grid is visited column by column, and each column from its start. -/
lemma pairwise_grid {w h k : ℕ} (hk : 0 < k) :
    (grid w h k).Pairwise fun p q => p.1 < q.1 ∨ (p.1 = q.1 ∧ p.2 < q.2) := by
  have hg : grid w h k = (stride w k).flatMap fun x => (stride h k).map (Prod.mk x) := rfl
  rw [hg, List.pairwise_flatMap]
  refine ⟨fun x _ => ?_, (pairwise_stride hk).imp fun {x x'} hx p hp q hq => ?_⟩
  · exact (pairwise_stride hk).map _ fun y y' hy => Or.inr ⟨rfl, hy⟩
  · obtain ⟨y, -, rfl⟩ := List.mem_map.mp hp
    obtain ⟨y', -, rfl⟩ := List.mem_map.mp hq
    exact Or.inl hx

@[simp] lemma length_grid (w h k : ℕ) : (grid w h k).length = count w k * count h k := by
  simp [grid, List.length_product]

/-- Two nested loops are one loop over the grid. -/
lemma foldl_grid {β : Type*} (f : β → ℕ → ℕ → β) (w h k : ℕ) (s : β) :
    (stride w k).foldl (fun s x => (stride h k).foldl (fun s y => f s x y) s) s =
      (grid w h k).foldl (fun s p => f s p.1 p.2) s := by
  have hg : grid w h k = (stride w k).flatMap fun x => (stride h k).map (Prod.mk x) := rfl
  rw [hg, List.foldl_flatMap]
  simp only [List.foldl_map]

lemma mem_addresses {w h b k i : ℕ} (hk : 0 < k) :
    i ∈ addresses w h b k ↔ ∃ x y, x < w ∧ y < h ∧ k ∣ x ∧ k ∣ y ∧ i = x + y * b := by
  simp only [addresses, List.mem_map, mem_grid hk, Prod.exists]
  constructor
  · rintro ⟨x, y, ⟨hx, hy, hkx, hky⟩, rfl⟩
    exact ⟨x, y, hx, hy, hkx, hky, rfl⟩
  · rintro ⟨x, y, hx, hy, hkx, hky, rfl⟩
    exact ⟨x, y, ⟨hx, hy, hkx, hky⟩, rfl⟩

/-- Rows at least as wide as the rectangle keep its addresses inside the buffer. -/
lemma lt_of_mem_addresses {w h b k i : ℕ} (hk : 0 < k) (hb : w ≤ b)
    (hi : i ∈ addresses w h b k) : i < b * h := by
  obtain ⟨x, y, hx, hy, -, -, rfl⟩ := (mem_addresses hk).mp hi
  calc x + y * b < b + y * b := by omega
    _ = b * (y + 1) := by ring
    _ ≤ b * h := Nat.mul_le_mul_left b hy

lemma addr_inj {b x y x' y' : ℕ} (hx : x < b) (hx' : x' < b) (h : x + y * b = x' + y' * b) :
    x = x' ∧ y = y' := by
  have hb : 0 < b := by omega
  have hm := congrArg (· % b) h
  simp only [Nat.add_mul_mod_self_right, Nat.mod_eq_of_lt hx, Nat.mod_eq_of_lt hx'] at hm
  subst hm
  exact ⟨rfl, Nat.eq_of_mul_eq_mul_right hb (by omega)⟩

lemma nodup_addresses {w h b k : ℕ} (hk : 0 < k) (hb : w ≤ b) : (addresses w h b k).Nodup := by
  refine (List.nodup_map_iff_inj_on (nodup_grid hk)).mpr fun p hp q hq hpq => ?_
  have hp1 := ((mem_grid hk).mp hp).1
  have hq1 := ((mem_grid hk).mp hq).1
  obtain ⟨h1, h2⟩ := addr_inj (by omega) (by omega) hpq
  exact Prod.ext h1 h2

@[simp] lemma length_addresses (w h b k : ℕ) :
    (addresses w h b k).length = count w k * count h k := by
  simp [addresses]

lemma count_pos_iff {n k : ℕ} (hk : 0 < k) : 0 < count n k ↔ 0 < n := by
  rw [lt_count_iff hk, Nat.zero_mul]

/-- The last address: the last column visited, in the last row visited. -/
lemma last_mem_addresses {w h b k : ℕ} (hk : 0 < k) (hw : 0 < w) (hh : 0 < h) :
    (count w k - 1) * k + (count h k - 1) * k * b ∈ addresses w h b k := by
  have hcw := (count_pos_iff hk).mpr hw
  have hch := (count_pos_iff hk).mpr hh
  refine (mem_addresses hk).mpr ⟨_, _, ?_, ?_, Nat.dvd_mul_left k _, Nat.dvd_mul_left k _, rfl⟩
  · exact (lt_count_iff hk).mp (by omega)
  · exact (lt_count_iff hk).mp (by omega)

lemma le_last_of_mem_addresses {w h b k i : ℕ} (hk : 0 < k) (hi : i ∈ addresses w h b k) :
    i ≤ (count w k - 1) * k + (count h k - 1) * k * b := by
  obtain ⟨x, y, hx, hy, ⟨u, rfl⟩, ⟨v, rfl⟩, rfl⟩ := (mem_addresses hk).mp hi
  have hu : u < count w k := (lt_count_iff hk).mpr (by rwa [Nat.mul_comm])
  have hv : v < count h k := (lt_count_iff hk).mpr (by rwa [Nat.mul_comm])
  have h1 : k * u ≤ (count w k - 1) * k := by
    rw [Nat.mul_comm]
    exact Nat.mul_le_mul_right k (by omega)
  have h2 : k * v * b ≤ (count h k - 1) * k * b := by
    rw [Nat.mul_comm k v]
    exact Nat.mul_le_mul_right b (Nat.mul_le_mul_right k (by omega))
  omega

/-- **When two loops visit the same addresses.** Over rectangles of one width, with rows at
least that wide, they do exactly when they visit equally many rows and, if there is more
than one, the rows are equally far apart. -/
theorem addresses_eq_iff {w h h' b b' k : ℕ} (hk : 0 < k) (hw : 0 < w) (hb : w ≤ b)
    (hb' : w ≤ b') :
    (∀ i, i ∈ addresses w h b k ↔ i ∈ addresses w h' b' k) ↔
      count h k = count h' k ∧ (count h k ≤ 1 ∨ b = b') := by
  constructor
  · intro heq
    have hperm := (List.perm_ext_iff_of_nodup (nodup_addresses hk hb)
      (nodup_addresses hk hb')).mpr heq
    have hlen := hperm.length_eq
    simp only [length_addresses] at hlen
    have hrows : count h k = count h' k :=
      Nat.eq_of_mul_eq_mul_left ((count_pos_iff hk).mpr hw) hlen
    refine ⟨hrows, ?_⟩
    by_cases h1 : count h k ≤ 1
    · exact Or.inl h1
    right
    have hh : 0 < h := (count_pos_iff hk).mp (by omega)
    have hh' : 0 < h' := (count_pos_iff hk).mp (by omega)
    -- the greatest address of each loop is an address of the other
    have l1 := le_last_of_mem_addresses hk ((heq _).mp (last_mem_addresses hk hw hh))
    have l2 := le_last_of_mem_addresses hk ((heq _).mpr (last_mem_addresses hk hw hh'))
    rw [← hrows] at l1 l2
    have hpos : 0 < (count h k - 1) * k := Nat.mul_pos (by omega) hk
    exact Nat.eq_of_mul_eq_mul_left hpos (by omega)
  · rintro ⟨hrows, hor⟩ i
    have hs : stride h' k = stride h k := by rw [stride, stride, hrows]
    simp only [addresses, grid, hs, List.mem_map, Prod.exists, List.mem_product]
    rcases hor with h1 | rfl
    · -- only the row `y = 0` is visited, whose addresses do not depend on the row distance
      have hy : ∀ y ∈ stride h k, y = 0 := by
        intro y hy
        obtain ⟨j, hj, rfl⟩ := List.mem_map.mp hy
        have : j = 0 := by have := List.mem_range.mp hj; omega
        rw [this, Nat.zero_mul]
      constructor
      · rintro ⟨x, y, hp, rfl⟩
        exact ⟨x, y, hp, by simp [hy y hp.2]⟩
      · rintro ⟨x, y, hp, rfl⟩
        exact ⟨x, y, hp, by simp [hy y hp.2]⟩
    · exact Iff.rfl

/-! ### How many multiples an interval has -/

lemma count_le_iff {n k c : ℕ} (hk : 0 < k) : count n k ≤ c ↔ n ≤ c * k := by
  rw [← Nat.not_lt, lt_count_iff hk, Nat.not_lt]

/-- An interval of length `m` has at most one multiple more than a run of `m` numbers from 0. -/
lemma count_add_le {k : ℕ} (hk : 0 < k) (a m : ℕ) : count (a + m) k ≤ count a k + count m k := by
  have ha : a ≤ count a k * k := (count_le_iff hk).mp (Nat.le_refl _)
  have hm : m ≤ count m k * k := (count_le_iff hk).mp (Nat.le_refl _)
  rw [count_le_iff hk, Nat.add_mul]
  exact Nat.add_le_add ha hm

lemma add_div_le_count {k : ℕ} (hk : 0 < k) (a m : ℕ) : count a k + m / k ≤ count (a + m) k := by
  unfold count
  have h : a + m + k - 1 = (a + k - 1) + m := by omega
  rw [h]
  exact Nat.div_add_div_le_add_div

lemma card_filter_dvd_range {k : ℕ} (hk : 0 < k) (n : ℕ) :
    ((Finset.range n).filter (k ∣ ·)).card = count n k := by
  have h : (Finset.range n).filter (k ∣ ·) = (stride n k).toFinset := by
    ext x
    simp [mem_stride hk]
  rw [h, List.toFinset_card_of_nodup (nodup_stride hk), length_stride]

lemma card_filter_dvd_Ico {k : ℕ} (hk : 0 < k) (a m : ℕ) :
    ((Finset.Ico a (a + m)).filter (k ∣ ·)).card = count (a + m) k - count a k := by
  have hunion : (Finset.range (a + m)).filter (k ∣ ·) =
      (Finset.range a).filter (k ∣ ·) ∪ (Finset.Ico a (a + m)).filter (k ∣ ·) := by
    ext x
    simp only [Finset.mem_union, Finset.mem_filter, Finset.mem_range, Finset.mem_Ico]
    omega
  have hdisj : Disjoint ((Finset.range a).filter (k ∣ ·))
      ((Finset.Ico a (a + m)).filter (k ∣ ·)) := by
    rw [Finset.disjoint_left]
    intro x hx hx'
    simp only [Finset.mem_filter, Finset.mem_range, Finset.mem_Ico] at hx hx'
    omega
  have hcard := Finset.card_union_of_disjoint hdisj
  rw [← hunion, card_filter_dvd_range hk, card_filter_dvd_range hk] at hcard
  omega

/-- The points of the grid as a set. -/
def points (w h k : ℕ) : Finset (ℕ × ℕ) :=
  (Finset.range w ×ˢ Finset.range h).filter fun p => k ∣ p.1 ∧ k ∣ p.2

lemma mem_points {w h k : ℕ} {p : ℕ × ℕ} :
    p ∈ points w h k ↔ p.1 < w ∧ p.2 < h ∧ k ∣ p.1 ∧ k ∣ p.2 := by
  simp [points, and_assoc]

lemma toFinset_grid {w h k : ℕ} (hk : 0 < k) : (grid w h k).toFinset = points w h k := by
  ext p
  rw [List.mem_toFinset, mem_grid hk, mem_points]

lemma card_points {w h k : ℕ} (hk : 0 < k) : (points w h k).card = count w k * count h k := by
  rw [← toFinset_grid hk, List.toFinset_card_of_nodup (nodup_grid hk), length_grid]

end Lib.Stride
