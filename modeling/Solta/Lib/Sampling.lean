import Mathlib.Data.Finset.Card
import Mathlib.Data.Set.Basic
import Mathlib.Tactic.Linarith
import Solta.Lib.Stride

/-!
Which loops count the spots of a picture.

A picture has `w × h` pixels in rows `b` apart. Loops over `w × h'` points in rows `b'` apart
count a bright rectangle of it at least once for every full square of the step it holds and,
when nothing else is bright, at most once for every square it takes to cover it, exactly when
they visit the picture's own sample. A picture that is narrower or lower than the step holds
no full square, and asks less of the loops.
-/

namespace Lib.Stride

/-- The pixels of the `m × n` rectangle at `(x, y)`. -/
def rectangle (x y m n : ℕ) : Finset (ℕ × ℕ) := Finset.Ico x (x + m) ×ˢ Finset.Ico y (y + n)

lemma mem_rectangle {x y m n : ℕ} {p : ℕ × ℕ} :
    p ∈ rectangle x y m n ↔ (x ≤ p.1 ∧ p.1 < x + m) ∧ y ≤ p.2 ∧ p.2 < y + n := by
  simp [rectangle]

/-- The sampled pixels of a rectangle. -/
def hits (k x y m n : ℕ) : Finset (ℕ × ℕ) :=
  (Finset.Ico x (x + m)).filter (k ∣ ·) ×ˢ (Finset.Ico y (y + n)).filter (k ∣ ·)

variable {x y m n k : ℕ}

lemma mem_hits {p : ℕ × ℕ} : p ∈ hits k x y m n ↔ p ∈ rectangle x y m n ∧ k ∣ p.1 ∧ k ∣ p.2 := by
  simp only [hits, rectangle, Finset.mem_product, Finset.mem_filter]
  tauto

lemma le_card_hits (hk : 0 < k) : m / k * (n / k) ≤ (hits k x y m n).card := by
  have hx := add_div_le_count hk x m
  have hy := add_div_le_count hk y n
  rw [hits, Finset.card_product, card_filter_dvd_Ico hk, card_filter_dvd_Ico hk]
  exact Nat.mul_le_mul (by omega) (by omega)

lemma card_hits_le (hk : 0 < k) : (hits k x y m n).card ≤ count m k * count n k := by
  have hx := count_add_le hk x m
  have hy := count_add_le hk y n
  rw [hits, Finset.card_product, card_filter_dvd_Ico hk, card_filter_dvd_Ico hk]
  exact Nat.mul_le_mul (by omega) (by omega)

/-! ### Pictures and loops -/

/-- The points of the loops at bright addresses. -/
def brightAt (bright : ℕ → Bool) (w h b k : ℕ) : Finset (ℕ × ℕ) :=
  (points w h k).filter fun p => bright (p.1 + p.2 * b)

lemma mem_brightAt {bright : ℕ → Bool} {w h b : ℕ} {p : ℕ × ℕ} :
    p ∈ brightAt bright w h b k ↔
      (p.1 < w ∧ p.2 < h ∧ k ∣ p.1 ∧ k ∣ p.2) ∧ bright (p.1 + p.2 * b) := by
  rw [brightAt, Finset.mem_filter, mem_points]

/-- The rectangle is inside the picture, and all its pixels are bright. -/
structure SpotAt (bright : ℕ → Bool) (w h b x y m n : ℕ) : Prop where
  width : x + m ≤ w
  height : y + n ≤ h
  all : ∀ p ∈ rectangle x y m n, bright (p.1 + p.2 * b)

/-- No other pixel of the picture is bright. -/
def AloneAt (bright : ℕ → Bool) (w h b x y m n : ℕ) : Prop :=
  ∀ p : ℕ × ℕ, p.1 < w → p.2 < h → bright (p.1 + p.2 * b) → p ∈ rectangle x y m n

/-- The loops over `w × h'` points in rows `b'` apart count the spots of the picture. -/
def CountsSpots (w h b h' b' k : ℕ) : Prop :=
  ∀ (bright : ℕ → Bool) (x y m n : ℕ), SpotAt bright w h b x y m n →
    m / k * (n / k) ≤ (brightAt bright w h' b' k).card ∧
      (AloneAt bright w h b x y m n →
        (brightAt bright w h' b' k).card ≤ count m k * count n k)

/-- The loops visit the picture's own sample. Where no full square fits, they visit no more
rows than it has, or pixels of it at least `k` rows apart. -/
def SamplesAlike (w h b h' b' k : ℕ) : Prop :=
  if h < k then count h' k ≤ count h k
  else if w < k then
    count h' k ≤ 1 ∨ (b ≤ b' ∧ ∀ j < count h' k, j * k * b' % b < w ∧ j * k * b' / b < h)
  else count h' k = count h k ∧ (count h' k ≤ 1 ∨ b' = b)

instance (w h b h' b' k : ℕ) : Decidable (SamplesAlike w h b h' b' k) := by
  unfold SamplesAlike; infer_instance

variable {w h b h' b' : ℕ} {bright : ℕ → Bool}

/-! ### Loops that sample alike -/

lemma SpotAt.hits_subset (hs : SpotAt bright w h b x y m n) :
    hits k x y m n ⊆ brightAt bright w h b k := by
  intro p hp
  obtain ⟨hrect, hk1, hk2⟩ := mem_hits.mp hp
  obtain ⟨⟨-, hx⟩, -, hy⟩ := mem_rectangle.mp hrect
  have hwidth := hs.width
  have hheight := hs.height
  exact mem_brightAt.mpr ⟨⟨by omega, by omega, hk1, hk2⟩, hs.all p hrect⟩

lemma AloneAt.subset_hits (ha : AloneAt bright w h b x y m n) :
    brightAt bright w h b k ⊆ hits k x y m n := by
  intro p hp
  obtain ⟨⟨hw, hh, hk1, hk2⟩, hb⟩ := mem_brightAt.mp hp
  exact mem_hits.mpr ⟨ha p hw hh hb, hk1, hk2⟩

/-- The picture's own loops count its spots. -/
theorem countsSpots_self (hk : 0 < k) : CountsSpots w h b h b k := fun _ _ _ _ _ hs =>
  ⟨(le_card_hits hk).trans (Finset.card_le_card hs.hits_subset),
    fun ha => (Finset.card_le_card ha.subset_hits).trans (card_hits_le hk)⟩

lemma lt_iff_of_count_eq (hk : 0 < k) (hc : count h' k = count h k) (hy : k ∣ y) :
    y < h' ↔ y < h := by
  obtain ⟨j, rfl⟩ := hy
  rw [Nat.mul_comm, ← lt_count_iff hk, ← lt_count_iff hk, hc]

/-- One row has the same addresses whatever the row distance. -/
lemma eq_zero_of_count_le_one (hk : 0 < k) (hc : count h' k ≤ 1) (hy : k ∣ y) (hlt : y < h') :
    y = 0 := by
  obtain ⟨j, rfl⟩ := hy
  rw [Nat.mul_comm, ← lt_count_iff hk] at hlt
  obtain rfl : j = 0 := by omega
  exact Nat.mul_zero k

lemma brightAt_subset (hk : 0 < k) (hone : count h' k ≤ 1) (hpos : 0 < h) :
    brightAt bright w h' b' k ⊆ brightAt bright w h b k := by
  intro p hp
  obtain ⟨⟨hw, hh, hk1, hk2⟩, hb⟩ := mem_brightAt.mp hp
  have hzero := eq_zero_of_count_le_one hk hone hk2 hh
  rw [hzero, Nat.zero_mul] at hb
  refine mem_brightAt.mpr ⟨⟨hw, ?_, hk1, hk2⟩, ?_⟩
  · rwa [hzero]
  · rwa [hzero, Nat.zero_mul]

/-- Loops over as many rows, equally far apart if there are more than one, are the picture's
own. -/
lemma brightAt_eq (hk : 0 < k) (hc : count h' k = count h k) (hor : count h' k ≤ 1 ∨ b' = b) :
    brightAt bright w h' b' k = brightAt bright w h b k := by
  ext p
  simp only [mem_brightAt]
  constructor
  · rintro ⟨⟨hw, hh, hk1, hk2⟩, hmem⟩
    refine ⟨⟨hw, (lt_iff_of_count_eq hk hc hk2).mp hh, hk1, hk2⟩, ?_⟩
    rcases hor with hone | rfl
    · rw [eq_zero_of_count_le_one hk hone hk2 hh] at hmem ⊢
      simpa using hmem
    · exact hmem
  · rintro ⟨⟨hw, hh, hk1, hk2⟩, hmem⟩
    have hh' := (lt_iff_of_count_eq hk hc hk2).mpr hh
    refine ⟨⟨hw, hh', hk1, hk2⟩, ?_⟩
    rcases hor with hone | rfl
    · rw [eq_zero_of_count_le_one hk hone hk2 hh'] at hmem ⊢
      simpa using hmem
    · exact hmem

/-- In a picture that is narrower than the step only the first column is sampled. -/
lemma fst_eq_zero (hwk : w < k) {p : ℕ × ℕ} (hp : p.1 < w) (hk1 : k ∣ p.1) : p.1 = 0 :=
  Nat.eq_zero_of_dvd_of_lt hk1 (hp.trans hwk)

/-- Rows at least as far apart as the picture's keep the sampled pixels `k` rows apart. -/
lemma card_narrow_le (hk : 0 < k) (hwk : w < k) (hb : w ≤ b) (hbb : b ≤ b')
    (hpix : ∀ j < count h' k, j * k * b' % b < w ∧ j * k * b' / b < h)
    (ha : AloneAt bright w h b x y m n) :
    (brightAt bright w h' b' k).card ≤ count m k * count n k := by
  have hmem : ∀ p ∈ brightAt bright w h' b' k, p.1 = 0 ∧
      ((p.2 * b') % b, (p.2 * b') / b) ∈ rectangle x y m n := by
    intro p hp
    obtain ⟨⟨hw, hh, hk1, j, hj⟩, hP⟩ := mem_brightAt.mp hp
    have hzero := fst_eq_zero hwk hw hk1
    have hlt : j < count h' k := by
      rw [lt_count_iff hk, Nat.mul_comm]
      omega
    obtain ⟨h1, h2⟩ := hpix j hlt
    rw [Nat.mul_comm j k, ← hj] at h1 h2
    refine ⟨hzero, ha _ h1 h2 ?_⟩
    rw [hzero, Nat.zero_add] at hP
    dsimp only
    rwa [Nat.mul_comm (p.2 * b' / b) b, Nat.mod_add_div]
  -- the squares of the step, from the upper side of the rectangle on, hold a pixel each
  have hcard : (brightAt bright w h' b' k).card ≤ (Finset.range (count n k)).card := by
    refine Finset.card_le_card_of_injOn (fun p => (p.2 * b' / b - y) / k) ?_ ?_
    · intro p hp
      obtain ⟨-, hrect⟩ := hmem p hp
      obtain ⟨-, hy1, hy2⟩ := mem_rectangle.mp hrect
      dsimp only at hy1 hy2
      refine Finset.mem_coe.mpr (Finset.mem_range.mpr ((lt_count_iff hk).mpr ?_))
      dsimp only
      have hle := Nat.div_mul_le_self (p.2 * b' / b - y) k
      omega
    · have hstrict : ∀ p ∈ brightAt bright w h' b' k, ∀ q ∈ brightAt bright w h' b' k, p.2 < q.2 →
          (p.2 * b' / b - y) / k < (q.2 * b' / b - y) / k := by
        intro p hp q hq hlt
        obtain ⟨⟨-, -, -, i, hi⟩, -⟩ := mem_brightAt.mp hp
        obtain ⟨⟨hwq, -, -, j, hj⟩, -⟩ := mem_brightAt.mp hq
        obtain ⟨-, hy1, -⟩ := mem_rectangle.mp (hmem p hp).2
        dsimp only at hy1
        have hij : i < j := by
          rw [hi, hj] at hlt
          exact Nat.lt_of_mul_lt_mul_left hlt
        have hstep : p.2 + k ≤ q.2 := by
          rw [hi, hj]
          calc k * i + k = k * (i + 1) := by ring
            _ ≤ k * j := Nat.mul_le_mul_left k hij
        have hbpos : 0 < b := by omega
        have hrows : p.2 * b' / b + k ≤ q.2 * b' / b := by
          rw [Nat.le_div_iff_mul_le hbpos, Nat.add_mul]
          calc p.2 * b' / b * b + k * b ≤ p.2 * b' + k * b' :=
                Nat.add_le_add (Nat.div_mul_le_self _ _) (Nat.mul_le_mul_left k hbb)
            _ = (p.2 + k) * b' := by ring
            _ ≤ q.2 * b' := Nat.mul_le_mul_right b' hstep
        calc (p.2 * b' / b - y) / k < (p.2 * b' / b - y) / k + 1 := Nat.lt_succ_self _
          _ = (p.2 * b' / b - y + k) / k := (Nat.add_div_right _ hk).symm
          _ ≤ (q.2 * b' / b - y) / k := Nat.div_le_div_right (by omega)
      intro p hp q hq heq
      rcases Nat.lt_trichotomy p.2 q.2 with hlt | hrow | hlt
      · exact absurd heq (hstrict p hp q hq hlt).ne
      · exact Prod.ext ((hmem p hp).1.trans (hmem q hq).1.symm) hrow
      · exact absurd heq (hstrict q hq p hp hlt).ne'
  rw [Finset.card_range] at hcard
  rcases (brightAt bright w h' b' k).eq_empty_or_nonempty with hempty | ⟨p, hp⟩
  · simp [hempty]
  · obtain ⟨⟨hx1, hx2⟩, -⟩ := mem_rectangle.mp (hmem p hp).2
    have hm := (count_pos_iff (n := m) hk).mpr (by omega)
    exact hcard.trans (Nat.le_mul_of_pos_left _ hm)

/-- **Loops that sample alike count the spots.** -/
theorem SamplesAlike.countsSpots (hk : 0 < k) (hb : w ≤ b) (ha : SamplesAlike w h b h' b' k) :
    CountsSpots w h b h' b' k := by
  have hself : count h' k = count h k → (count h' k ≤ 1 ∨ b' = b) →
      CountsSpots w h b h' b' k := by
    intro hc hor bright x y m n hs
    rw [brightAt_eq hk hc hor]
    exact countsSpots_self hk bright x y m n hs
  unfold SamplesAlike at ha
  split at ha
  · rename_i hlow
    rcases ha.eq_or_lt with hc | hlt
    · refine hself hc (.inl ?_)
      rw [hc, count_le_iff hk]
      omega
    · -- no row is visited, and no full square is there to be counted
      intro bright x y m n hs
      have hnone : ¬ 0 < h' := by
        rw [← count_pos_iff hk]
        have hone := (count_le_iff (n := h) (c := 1) hk).mpr (by omega)
        omega
      have hempty : brightAt bright w h' b' k = ∅ :=
        Finset.eq_empty_of_forall_notMem fun p hp => by
          have hp2 := (mem_brightAt.mp hp).1.2.1
          omega
      have hdiv : n / k = 0 := Nat.div_eq_of_lt (by have := hs.height; omega)
      simp [hempty, hdiv]
  · split at ha
    · rename_i hhk hwk
      have hdiv : ∀ {x m}, x + m ≤ w → m / k = 0 := fun hm => Nat.div_eq_of_lt (by omega)
      intro bright x y m n hs
      refine ⟨by simp [hdiv hs.width], fun halone => ?_⟩
      rcases ha with hone | ⟨hbb, hpix⟩
      · have hpos : 0 < h := hk.trans_le (not_lt.mp hhk)
        exact (Finset.card_le_card (brightAt_subset hk hone hpos)).trans
          ((countsSpots_self hk bright x y m n hs).2 halone)
      · exact card_narrow_le hk hwk hb hbb hpix halone
    · exact hself ha.1 ha.2

/-! ### Loops that count the spots -/

/-- Where every full square of the picture is counted, a lone one is counted by some point. -/
lemma CountsSpots.exists_mem (hk : 0 < k) (hc : CountsSpots w h b h' b' k)
    (hx : x + k ≤ w) (hy : y + k ≤ h) :
    ∃ p : ℕ × ℕ, (p.1 < w ∧ p.2 < h' ∧ k ∣ p.1 ∧ k ∣ p.2) ∧
      ∃ q ∈ rectangle x y k k, p.1 + p.2 * b' = q.1 + q.2 * b := by
  let bright : ℕ → Bool := fun i => decide (∃ q ∈ rectangle x y k k, i = q.1 + q.2 * b)
  have hspot : SpotAt bright w h b x y k k :=
    ⟨hx, hy, fun q hq => decide_eq_true ⟨q, hq, rfl⟩⟩
  have hone := (hc bright x y k k hspot).1
  rw [Nat.div_self hk] at hone
  obtain ⟨p, hp⟩ := Finset.card_pos.mp hone
  obtain ⟨hpoint, hbright⟩ := mem_brightAt.mp hp
  exact ⟨p, hpoint, of_decide_eq_true hbright⟩

/-- The loops visit no more rows than the picture has, the whole picture being a spot. -/
lemma CountsSpots.count_le (hk : 0 < k) (hc : CountsSpots w h b h' b' k) (hw : 0 < w) :
    count h' k ≤ count h k := by
  have hspot : SpotAt (fun _ => true) w h b 0 0 w h := ⟨by omega, by omega, fun _ _ => rfl⟩
  have hle := (hc _ 0 0 w h hspot).2 fun p hpw hph _ => mem_rectangle.mpr (by omega)
  have hall : brightAt (fun _ => true) w h' b' k = points w h' k := by
    simp [brightAt]
  rw [hall, card_points hk] at hle
  exact Nat.le_of_mul_le_mul_left hle ((count_pos_iff hk).mpr hw)

/-- The points in the first `k` rows are counted once for every column, so the second row of
the loops is not among them. -/
lemma CountsSpots.row_le (hk : 0 < k) (hc : CountsSpots w h b h' b' k) (hw : 0 < w) (hb : w ≤ b)
    (hkh : k ≤ h) (htwo : 1 < count h' k) : b ≤ b' := by
  by_contra hlt
  have hspot : SpotAt (fun i => decide (i < k * b)) w h b 0 0 w k := by
    refine ⟨by omega, by omega, fun p hp => decide_eq_true ?_⟩
    obtain ⟨⟨-, hx⟩, -, hy⟩ := mem_rectangle.mp hp
    calc p.1 + p.2 * b < b + p.2 * b := by omega
      _ = (p.2 + 1) * b := by ring
      _ ≤ k * b := Nat.mul_le_mul_right b (by omega)
  have hle := (hc _ 0 0 w k hspot).2 fun p hpw hph hp => by
    have hlt := of_decide_eq_true hp
    have hrow : p.2 < k := Nat.lt_of_mul_lt_mul_right (a := b) (by omega)
    exact mem_rectangle.mpr (by omega)
  have hone : count k k = 1 := by
    have h1 := (count_le_iff (n := k) (c := 1) hk).mpr (by omega)
    have h2 := (count_pos_iff (n := k) hk).mpr hk
    omega
  -- all points of the first row, and the first one of the second
  have hsub : insert (0, k) (points w 1 k) ⊆
      brightAt (fun i => decide (i < k * b)) w h' b' k := by
    intro p hp
    rcases Finset.mem_insert.mp hp with rfl | hp
    · have hkh' : k < h' := by
        have := (lt_count_iff hk).mp htwo
        omega
      refine mem_brightAt.mpr ⟨⟨hw, hkh', dvd_zero k, dvd_refl k⟩, decide_eq_true ?_⟩
      rw [Nat.zero_add]
      exact Nat.mul_lt_mul_of_pos_left (not_le.mp hlt) hk
    · obtain ⟨hpw, hp2, hk1, -⟩ := mem_points.mp hp
      obtain hzero : p.2 = 0 := by omega
      have hh' : 0 < h' := (count_pos_iff hk).mp (by omega)
      refine mem_brightAt.mpr ⟨⟨hpw, by omega, hk1, by simp [hzero]⟩, decide_eq_true ?_⟩
      rw [hzero, Nat.zero_mul, Nat.add_zero]
      exact (hpw.trans_le hb).trans_le (Nat.le_mul_of_pos_left b hk)
  have hnotMem : (0, k) ∉ points w 1 k := by
    rw [mem_points]
    omega
  have hcard := Finset.card_le_card hsub
  rw [Finset.card_insert_of_notMem hnotMem, card_points hk,
    Nat.le_antisymm ((count_le_iff (n := 1) (c := 1) hk).mpr (by omega))
      ((count_pos_iff (n := 1) hk).mpr (by omega)), Nat.mul_one] at hcard
  rw [hone] at hle
  omega

/-- In a picture without a spot nothing is counted, so the loops stay on its pixels. -/
lemma CountsSpots.on_pixel (hk : 0 < k) (hc : CountsSpots w h b h' b' k) (hw : 0 < w)
    (hb : w ≤ b) {j : ℕ} (hj : j < count h' k) : j * k * b' % b < w ∧ j * k * b' / b < h := by
  by_contra hoff
  have hspot : SpotAt (fun i => decide (¬ (i % b < w ∧ i / b < h))) w h b 0 0 0 0 :=
    ⟨by omega, by omega, fun p hp => by simp [rectangle] at hp⟩
  have hle := (hc _ 0 0 0 0 hspot).2 fun p hpw hph hp => by
    have hlt : p.1 < b := hpw.trans_le hb
    have hmod : (p.1 + p.2 * b) % b = p.1 := by
      rw [Nat.add_mul_mod_self_right, Nat.mod_eq_of_lt hlt]
    have hdiv : (p.1 + p.2 * b) / b = p.2 := by
      rw [Nat.add_mul_div_right _ _ (by omega), Nat.div_eq_of_lt hlt, Nat.zero_add]
    have hbright := of_decide_eq_true hp
    rw [hmod, hdiv] at hbright
    exact absurd ⟨hpw, hph⟩ hbright
  have hmem : (0, j * k) ∈ brightAt (fun i => decide (¬ (i % b < w ∧ i / b < h))) w h' b' k :=
    mem_brightAt.mpr ⟨⟨hw, (lt_count_iff hk).mp hj, dvd_zero k, Nat.dvd_mul_left k j⟩,
      decide_eq_true (by rwa [Nat.zero_add])⟩
  have hzero : count 0 k = 0 := Nat.le_zero.mp ((count_le_iff hk).mpr (by omega))
  have hpos := Finset.card_pos.mpr ⟨_, hmem⟩
  rw [hzero] at hle
  omega

/-- Rows further apart than the picture's jump over a square below the first row. -/
lemma CountsSpots.le_row (hk : 0 < k) (hc : CountsSpots w h b h' b' k) (hkw : k ≤ w) (hb : w ≤ b)
    (htwo : 1 < count h k) : b' ≤ b := by
  by_contra hlt
  have hkh := (lt_count_iff hk).mp htwo
  obtain ⟨p, ⟨hpw, -, -, j, hj⟩, q, hq, heq⟩ := hc.exists_mem (x := 0) (y := 1) hk (by omega)
    (by omega)
  obtain ⟨⟨-, hq1⟩, hq2, hq3⟩ := mem_rectangle.mp hq
  have hrow : q.2 * b ≤ k * b := Nat.mul_le_mul_right b (by omega)
  have hfirst : b ≤ q.2 * b := Nat.le_mul_of_pos_left b (by omega)
  rcases Nat.eq_zero_or_pos j with rfl | hpos
  · rw [hj, Nat.mul_zero, Nat.zero_mul] at heq
    omega
  · have hskip : k * (b + 1) ≤ p.2 * b' := by
      rw [hj]
      exact Nat.mul_le_mul (Nat.le_mul_of_pos_right k hpos) (by omega)
    rw [Nat.mul_add, Nat.mul_one] at hskip
    omega

/-- With fewer rows than the picture's sample the loops miss a square below the last one. -/
lemma CountsSpots.le_count (hk : 0 < k) (hc : CountsSpots w h b h' b' k) (hkw : k ≤ w)
    (hb : w ≤ b) (hkh : k ≤ h) (hor : count h' k ≤ 1 ∨ b' = b) : count h k ≤ count h' k := by
  by_contra hlt
  rw [not_le] at hlt
  obtain ⟨p₀, ⟨-, hh', -⟩, -⟩ := hc.exists_mem (x := 0) (y := 0) hk (by omega) (by omega)
  have hpos : 0 < count h' k := (count_pos_iff hk).mpr (by omega)
  have hlast := (lt_count_iff hk).mp hlt
  have hrows : (count h' k - 1) * k + k = count h' k * k := by
    rw [Nat.sub_mul, Nat.one_mul]
    exact Nat.sub_add_cancel (Nat.le_mul_of_pos_left k hpos)
  obtain ⟨p, ⟨hpw, hph, -, hdvd⟩, q, hq, heq⟩ :=
    hc.exists_mem (x := 0) (y := (count h' k - 1) * k + 1) hk (by omega) (by omega)
  obtain ⟨⟨-, hq1⟩, hq2, -⟩ := mem_rectangle.mp hq
  rcases hor with hone | rfl
  · have hzero := eq_zero_of_count_le_one hk hone hdvd hph
    have hfirst : b ≤ q.2 * b := Nat.le_mul_of_pos_left b (by omega)
    rw [hzero, Nat.zero_mul] at heq
    omega
  · obtain ⟨-, hsame⟩ := addr_inj (by omega) (by omega) heq
    obtain ⟨j, hj⟩ := hdvd
    rw [hj, Nat.mul_comm, ← lt_count_iff hk] at hph
    have hle : j * k ≤ (count h' k - 1) * k := Nat.mul_le_mul_right k (by omega)
    rw [Nat.mul_comm] at hle
    omega

/-- **Only loops that sample alike count the spots.** -/
theorem CountsSpots.samplesAlike (hk : 0 < k) (hw : 0 < w) (hb : w ≤ b)
    (hc : CountsSpots w h b h' b' k) : SamplesAlike w h b h' b' k := by
  have hle := hc.count_le hk hw
  unfold SamplesAlike
  split
  · exact hle
  · rename_i hkh
    rw [not_lt] at hkh
    split
    · by_cases hone : count h' k ≤ 1
      · exact .inl hone
      · exact .inr ⟨hc.row_le hk hw hb hkh (by omega), fun j hj => hc.on_pixel hk hw hb hj⟩
    · rename_i hkw
      rw [not_lt] at hkw
      have hor : count h' k ≤ 1 ∨ b' = b := by
        by_cases hone : count h' k ≤ 1
        · exact .inl hone
        · exact .inr (Nat.le_antisymm (hc.le_row hk hkw hb (by omega))
            (hc.row_le hk hw hb hkh (by omega)))
      exact ⟨Nat.le_antisymm hle (hc.le_count hk hkw hb hkh hor), hor⟩

/-- **Which loops count the spots**: those that sample the picture alike. -/
theorem countsSpots_iff (hk : 0 < k) (hw : 0 < w) (hb : w ≤ b) :
    CountsSpots w h b h' b' k ↔ SamplesAlike w h b h' b' k :=
  ⟨fun hc => hc.samplesAlike hk hw hb, fun ha => ha.countsSpots hk hb⟩

end Lib.Stride
