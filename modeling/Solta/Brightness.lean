import Mathlib.Tactic.NormNum
import Solta.Imaging
import Solta.Lib.FirstMax

/-!
What a scan finds.

The scan counts the sampled pixels above the cutoff and keeps the first brightest of them. A
pixel below the cutoff is never compared with the brightest so far; it could not be brighter
than a pixel that was counted, so the brightest counted pixel is the brightest of all.
-/

namespace Solta.Brightness

open Lib Lib.Stride Solta.Imaging

variable {Img : Type}

/-- The byte the scan reads at a point. -/
def byte (d : Detector Img) (b : PixelBuffer Img) (p : ℕ × ℕ) : ℕ :=
  (b.plane (p.1 + p.2 * d.bytesPerRowofPlane)).toNat

def cutoff (d : Detector Img) : ℚ := getIntensityThreshold d detectionMode * (3 / 4)

def IsBright (d : Detector Img) (b : PixelBuffer Img) (p : ℕ × ℕ) : Prop :=
  cutoff d < byte d b p

instance (d : Detector Img) (b : PixelBuffer Img) : DecidablePred (IsBright d b) :=
  fun _ => inferInstanceAs (Decidable (_ < _))

/-- The points the loops visit. -/
def sampled (d : Detector Img) : Finset (ℕ × ℕ) := points d.width d.height d.pixelsToSkip

def brightPoints (d : Detector Img) (b : PixelBuffer Img) : Finset (ℕ × ℕ) :=
  (sampled d).filter (IsBright d b)

variable {d : Detector Img} {b : PixelBuffer Img}

lemma byte_le (p : ℕ × ℕ) : byte d b p ≤ 255 :=
  Nat.le_of_lt_succ (b.plane (p.1 + p.2 * d.bytesPerRowofPlane)).toNat_lt

/-! ### One point -/

lemma visit_of_not_isBright {p : ℕ × ℕ} (h : ¬ IsBright d b p) (s : Scan) :
    visit d b s p.1 p.2 =
      { s with reads := s.reads ++ [p.1 + p.2 * d.bytesPerRowofPlane] } := by
  unfold visit
  exact if_neg h

/-- A bright point is counted, and is the brightest so far when it is brighter. -/
lemma visit_of_isBright {p : ℕ × ℕ} (h : IsBright d b p) (s : Scan) :
    visit d b s p.1 p.2 =
      { numBrightPixels := s.numBrightPixels + 1
        highestIntensity :=
          if s.highestIntensity < byte d b p then byte d b p else s.highestIntensity
        highestIntensityPoint :=
          if s.highestIntensity < byte d b p then (p.1, p.2) else s.highestIntensityPoint
        reads := s.reads ++ [p.1 + p.2 * d.bytesPerRowofPlane] } := by
  unfold visit
  refine (if_pos h).trans ?_
  by_cases hlt : s.highestIntensity < byte d b p
  · rw [if_pos hlt, if_pos hlt]
    exact if_pos hlt
  · rw [if_neg hlt, if_neg hlt]
    exact if_neg hlt

/-! ### The count -/

lemma foldl_numBrightPixels (g : List (ℕ × ℕ)) (s : Scan) :
    (g.foldl (fun s p => visit d b s p.1 p.2) s).numBrightPixels =
      s.numBrightPixels + g.countP (IsBright d b) := by
  induction g generalizing s with
  | nil => rfl
  | cons p g ih =>
    rw [List.foldl_cons, ih]
    by_cases h : IsBright d b p
    · rw [visit_of_isBright h, List.countP_cons_of_pos (by simpa using h)]
      dsimp only
      omega
    · rw [visit_of_not_isBright h, List.countP_cons_of_neg (by simpa using h)]

/-- The count of a scan is the number of its bright points, each counted once. -/
lemma scan_numBrightPixels (hk : 0 < d.pixelsToSkip) :
    (scan d b).numBrightPixels = (brightPoints d b).card := by
  have hset : brightPoints d b =
      ((grid d.width d.height d.pixelsToSkip).filter fun p => IsBright d b p).toFinset := by
    rw [List.toFinset_filter, toFinset_grid hk]
    simp [brightPoints, sampled]
  rw [scan_eq, foldl_numBrightPixels, hset,
    List.toFinset_card_of_nodup ((nodup_grid hk).filter _), List.countP_eq_length_filter]
  exact Nat.zero_add _

/-! ### The brightest -/

/-- The scan after the points of `g`: it has found no bright point yet, or it has the first
brightest of all points so far. -/
structure Found (d : Detector Img) (b : PixelBuffer Img) (g : List (ℕ × ℕ)) (s : Scan) :
    Prop where
  none : (∀ q ∈ g, ¬ IsBright d b q) →
    s.highestIntensity = leastNormalMagnitude ∧ s.highestIntensityPoint = (-1, -1)
  some : (∃ q ∈ g, IsBright d b q) → ∃ p : ℕ × ℕ, IsBright d b p ∧ FirstMax (byte d b) g p ∧
    s.highestIntensity = byte d b p ∧ s.highestIntensityPoint = (↑p.1, ↑p.2)

/-- A point that is not bright is less than every bright point. -/
lemma byte_lt {p q : ℕ × ℕ} (hp : IsBright d b p) (hq : ¬ IsBright d b q) :
    byte d b q < byte d b p := by
  have h : (byte d b q : ℚ) < byte d b p := lt_of_le_of_lt (not_lt.mp hq) hp
  exact_mod_cast h

/-- With a threshold that is not negative every bright point beats the start value. -/
lemma leastNormalMagnitude_lt {p : ℕ × ℕ} (hc : 0 ≤ cutoff d) (hp : IsBright d b p) :
    leastNormalMagnitude < byte d b p := by
  have hpos : (0 : ℚ) < byte d b p := lt_of_le_of_lt hc hp
  have hone : (1 : ℚ) ≤ byte d b p := by
    have : 0 < byte d b p := by exact_mod_cast hpos
    exact_mod_cast this
  have hpow : (1 : ℚ) < 2 ^ 1022 := one_lt_pow₀ (by norm_num) (by norm_num)
  have hleast : leastNormalMagnitude < 1 := (div_lt_one₀ (lt_trans one_pos hpow)).mpr hpow
  exact lt_of_lt_of_le hleast hone

/-- **One more point** keeps the first brightest. -/
lemma Found.snoc {g : List (ℕ × ℕ)} {s : Scan} (hc : 0 ≤ cutoff d) (h : Found d b g s)
    (q : ℕ × ℕ) : Found d b (g ++ [q]) (visit d b s q.1 q.2) := by
  by_cases hq : IsBright d b q
  · rw [visit_of_isBright hq]
    refine ⟨fun hnone => absurd hq (hnone q (by simp)), fun _ => ?_⟩
    by_cases hsome : ∃ x ∈ g, IsBright d b x
    · obtain ⟨p, hp, hmax, hval, hpoint⟩ := h.some hsome
      simp only [hval, hpoint, Nat.cast_lt]
      by_cases hlt : byte d b p < byte d b q
      · have hall : ∀ x ∈ g, byte d b x < byte d b q :=
          fun x hx => lt_of_le_of_lt (hmax.le x hx) hlt
        exact ⟨q, hq, FirstMax.snoc_of_lt hall, if_pos hlt, if_pos hlt⟩
      · exact ⟨p, hp, hmax.snoc_of_le (not_lt.mp hlt), if_neg hlt, if_neg hlt⟩
    · have hdark : ∀ x ∈ g, ¬ IsBright d b x := fun x hx hb => hsome ⟨x, hx, hb⟩
      have hlt : s.highestIntensity < byte d b q := by
        rw [(h.none hdark).1]
        exact leastNormalMagnitude_lt hc hq
      have hall : ∀ x ∈ g, byte d b x < byte d b q := fun x hx => byte_lt hq (hdark x hx)
      exact ⟨q, hq, FirstMax.snoc_of_lt hall, if_pos hlt, if_pos hlt⟩
  · rw [visit_of_not_isBright hq]
    refine ⟨fun hnone => h.none fun x hx => hnone x (by simp [hx]), fun ⟨x, hx, hxb⟩ => ?_⟩
    have hxg : x ∈ g := by
      rcases List.mem_append.mp hx with hx | hx
      · exact hx
      · rw [List.mem_singleton.mp hx] at hxb
        exact absurd hxb hq
    obtain ⟨p, hp, hmax, hval, hpoint⟩ := h.some ⟨x, hxg, hxb⟩
    exact ⟨p, hp, hmax.snoc_of_le (byte_lt hp hq).le, hval, hpoint⟩

lemma found_foldl (hc : 0 ≤ cutoff d) (g : List (ℕ × ℕ)) :
    Found d b g (g.foldl (fun s p => visit d b s p.1 p.2) Scan.start) := by
  induction g using List.reverseRecOn with
  | nil => exact ⟨fun _ => ⟨rfl, rfl⟩, fun ⟨q, hq, _⟩ => by simp at hq⟩
  | append_singleton g q ih =>
    rw [List.foldl_append]
    exact ih.snoc hc q

lemma found_scan (hc : 0 ≤ cutoff d) :
    Found d b (grid d.width d.height d.pixelsToSkip) (scan d b) := by
  rw [scan_eq]
  exact found_foldl hc _

lemma mem_sampled (hk : 0 < d.pixelsToSkip) {p : ℕ × ℕ} :
    p ∈ sampled d ↔ p ∈ grid d.width d.height d.pixelsToSkip := by
  rw [sampled, ← toFinset_grid hk, List.mem_toFinset]

/-- `p` is the first brightest point, in the order of the scan. -/
structure Brightest (d : Detector Img) (b : PixelBuffer Img) (p : ℕ × ℕ) : Prop where
  sampled : p ∈ sampled d
  le : ∀ q ∈ Brightness.sampled d, byte d b q ≤ byte d b p
  first : ∀ q ∈ Brightness.sampled d, byte d b q = byte d b p →
    q = p ∨ p.1 < q.1 ∨ (p.1 = q.1 ∧ p.2 < q.2)

/-- **The scan meets its specification**: it counts the bright points; if there is one it has
the greatest of all sampled bytes and the first point that attains it, and if there is none
the point is as it was. -/
theorem scan_spec (d : Detector Img) (b : PixelBuffer Img) (hk : 0 < d.pixelsToSkip)
    (ht : 0 ≤ getIntensityThreshold d detectionMode) :
    (scan d b).numBrightPixels = (brightPoints d b).card ∧
      (0 < (brightPoints d b).card → ∃ p : ℕ × ℕ, Brightest d b p ∧
        (scan d b).highestIntensity = byte d b p ∧
        (scan d b).highestIntensityPoint = (↑p.1, ↑p.2)) ∧
      ((brightPoints d b).card = 0 → (scan d b).highestIntensityPoint = (-1, -1)) := by
  have hc : 0 ≤ cutoff d := mul_nonneg ht (by norm_num)
  have hfound : Found d b (grid d.width d.height d.pixelsToSkip) (scan d b) := found_scan hc
  refine ⟨scan_numBrightPixels hk, fun hpos => ?_, fun hzero => ?_⟩
  · obtain ⟨q, hq⟩ := Finset.card_pos.mp hpos
    obtain ⟨hqs, hqb⟩ := Finset.mem_filter.mp hq
    obtain ⟨p, -, hmax, hval, hpoint⟩ := hfound.some ⟨q, (mem_sampled hk).mp hqs, hqb⟩
    refine ⟨p, ⟨(mem_sampled hk).mpr hmax.mem, fun x hx => ?_, fun x hx heq => ?_⟩, hval, hpoint⟩
    · exact hmax.le x ((mem_sampled hk).mp hx)
    · exact hmax.eq_or_of_pairwise (pairwise_grid hk) ((mem_sampled hk).mp hx) heq
  · refine (hfound.none fun q hq hqb => ?_).2
    rw [Finset.card_eq_zero] at hzero
    have hmem : q ∈ brightPoints d b := Finset.mem_filter.mpr ⟨(mem_sampled hk).mpr hq, hqb⟩
    simp [hzero] at hmem

/-- In a frame of one brightness the first point of the scan is the brightest. -/
theorem scan_spec_plain :
    let b := plain () 4 4 4 200
    let d := ready (DetectionVC.initial 0 ()) b
    (scan d b).numBrightPixels = 4 ∧
      ∃ p : ℕ × ℕ, Brightest d b p ∧ (scan d b).highestIntensityPoint = (↑p.1, ↑p.2) := by
  intro b d
  have hcard : (brightPoints d b).card = 4 := by decide +kernel
  obtain ⟨hcount, hbrightest, -⟩ := scan_spec d b (by decide) (by decide +kernel)
  obtain ⟨p, hp, -, hpoint⟩ := hbrightest (by omega)
  exact ⟨hcount.trans hcard, p, hp, hpoint⟩

end Solta.Brightness
