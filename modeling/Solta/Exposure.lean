import Solta.Brightness

/-!
The guard against over-exposed frames.

The guard compares the bright pixels of the sample with a quarter of all pixels. The sample
has only one pixel in `k * k`, so more than a quarter of it may be bright and the frame still
pass. The guard is right about the frames whose bright pixels are either no more than a
quarter of the sample or more than a quarter of all pixels.
-/

namespace Solta.Exposure

open Lib.Stride Solta.Imaging Solta.Brightness

variable {Img ρ : Type} {d : Detector Img} {b : PixelBuffer Img}

/-- More than a quarter of the sampled pixels are bright. -/
def Overexposed (d : Detector Img) (b : PixelBuffer Img) : Prop :=
  (sampled d).card < 4 * (brightPoints d b).card

/-- The frame is not counted, and nothing is recorded for it. -/
structure NotAnEvent (d : Detector Img) (c : Capture Img ρ) : Prop where
  numEvents : c.detector.numEvents = d.numEvents
  handed : c.handed = none

/-- The handler does not take an over-exposed frame for an event. -/
def GuardWorks (handler : Detector Img → ℚ → PixelBuffer Img → Capture Img ρ)
    (d : Detector Img) (now : ℚ) (b : PixelBuffer Img) : Prop :=
  Overexposed (ready d b) b → NotAnEvent d (handler d now b)

/-- The bright pixels are no more than a quarter of the sample, or more than a quarter of the
whole frame. -/
def GuardFits (d : Detector Img) (b : PixelBuffer Img) : Prop :=
  4 * (brightPoints d b).card ≤ (sampled d).card ∨
    d.width * d.height / 4 < (brightPoints d b).card

/-! ### One frame -/

lemma notAnEvent_captureOutput_iff (d : Detector Img) (now : ℚ) (b : PixelBuffer Img) :
    NotAnEvent d (DetectionVC.captureOutput d now b) ↔
      isEvent (ready d b) (scan (ready d b) b) = false := by
  rw [DetectionVC.captureOutput_eq]
  split
  · rename_i h
    refine ⟨fun hn => ?_, fun hn => ?_⟩
    · simpa using hn.handed
    · simp [h] at hn
  · rename_i h
    exact ⟨fun _ => Bool.eq_false_iff.mpr h, fun _ => ⟨ready_numEvents d b, rfl⟩⟩

lemma notAnEvent_capturedOutput_iff (d : Detector Img) (now : ℚ) (b : PixelBuffer Img) :
    NotAnEvent d (DetectionHelper.capturedOutput d now b) ↔
      isEvent (ready d b) (scan (ready d b) b) = false := by
  rw [DetectionHelper.capturedOutput_eq]
  split
  · rename_i h
    -- counted in both cases, when the flux is too high as well
    refine ⟨fun hn => ?_, fun hn => ?_⟩
    · have hcount := hn.numEvents
      split at hcount <;> simp at hcount
    · simp [h] at hn
  · rename_i h
    exact ⟨fun _ => Bool.eq_false_iff.mpr h, fun _ => ⟨ready_numEvents d b, rfl⟩⟩

/-- The guard is right about a frame exactly when it fits. -/
lemma guard_iff (hk : 0 < d.pixelsToSkip) (hmin : d.minRaySize = 1) :
    (Overexposed d b → isEvent d (scan d b) = false) ↔ GuardFits d b := by
  have hevent : isEvent d (scan d b) = false ↔
      ¬ (1 ≤ (brightPoints d b).card ∧ (brightPoints d b).card ≤ d.width * d.height / 4) := by
    unfold isEvent
    rw [scan_numBrightPixels hk, hmin, ← Bool.decide_and, decide_eq_false_iff_not]
  unfold Overexposed GuardFits
  rw [hevent]
  omega

/-! ### All frames of one size -/

/-- Any points of the sample can be the bright ones. -/
lemma exists_plane (hrow : d.width ≤ d.bytesPerRowofPlane) (hlow : 0 ≤ cutoff d)
    (hhigh : cutoff d < 255) {s : Finset (ℕ × ℕ)} (hs : s ⊆ sampled d) :
    ∃ plane, brightPoints d { b with plane := plane } = s := by
  let address := fun p : ℕ × ℕ => p.1 + p.2 * d.bytesPerRowofPlane
  refine ⟨fun i => if i ∈ s.image address then 255 else 0, ?_⟩
  have hinj : ∀ p ∈ sampled d, ∀ q ∈ sampled d, address p = address q → p = q := by
    intro p hp q hq h
    obtain ⟨hp1, -⟩ := mem_points.mp hp
    obtain ⟨hq1, -⟩ := mem_points.mp hq
    obtain ⟨h1, h2⟩ := addr_inj (by omega) (by omega) h
    exact Prod.ext h1 h2
  ext p
  unfold brightPoints
  rw [Finset.mem_filter]
  unfold IsBright byte
  dsimp only
  split
  · rename_i himage
    obtain ⟨q, hq, hqp⟩ := Finset.mem_image.mp himage
    refine ⟨fun ⟨hp, _⟩ => ?_, fun hp => ⟨hs hp, by simpa using hhigh⟩⟩
    rwa [← hinj q (hs hq) p hp hqp]
  · rename_i himage
    refine ⟨fun ⟨_, hbright⟩ => ?_, fun hp => absurd (Finset.mem_image_of_mem address hp) himage⟩
    have hzero : cutoff d < 0 := by simpa using hbright
    exact absurd hlow (not_le.mpr hzero)

/-- Without bright pixels the guard has nothing to do. -/
lemma brightPoints_eq_empty (h : 255 ≤ cutoff d) : brightPoints d b = ∅ := by
  refine Finset.filter_eq_empty_iff.mpr fun p _ hp => ?_
  have hbyte : (byte d b p : ℚ) ≤ 255 := by exact_mod_cast byte_le p
  exact absurd (lt_of_lt_of_le hp (hbyte.trans h)) (lt_irrefl _)

/-- The guard fits all contents of a frame exactly when a quarter of all pixels is no more
than a quarter of the sample, or no pixel can be bright. -/
lemma forall_guardFits_iff (hk : 0 < d.pixelsToSkip) (hrow : d.width ≤ d.bytesPerRowofPlane)
    (hlow : 0 ≤ cutoff d) :
    (∀ plane, GuardFits d { b with plane := plane }) ↔
      d.width * d.height / 4 ≤ (sampled d).card / 4 ∨ 255 ≤ cutoff d := by
  constructor
  · intro h
    by_cases hhigh : 255 ≤ cutoff d
    · exact Or.inr hhigh
    left
    rcases Nat.eq_zero_or_pos (sampled d).card with hzero | hpos
    · -- an empty sample is that of an empty frame
      rw [sampled, card_points hk] at hzero
      have harea : d.width * d.height = 0 := by
        rcases Nat.mul_eq_zero.mp hzero with h0 | h0
        · rw [Nat.eq_zero_of_not_pos fun hw => (count_pos_iff hk).mpr hw |>.ne' h0, Nat.zero_mul]
        · rw [Nat.eq_zero_of_not_pos fun hh => (count_pos_iff hk).mpr hh |>.ne' h0, Nat.mul_zero]
      omega
    · -- one pixel more than a quarter of the sample is bright
      obtain ⟨s, hs, hcard⟩ :=
        Finset.exists_subset_card_eq (s := sampled d) (n := (sampled d).card / 4 + 1) (by omega)
      obtain ⟨plane, hplane⟩ := exists_plane (b := b) hrow hlow (not_le.mp hhigh) hs
      have hfits := h plane
      unfold GuardFits at hfits
      rw [hplane, hcard] at hfits
      omega
  · rintro (hle | hhigh) plane
    · unfold GuardFits
      omega
    · left
      rw [brightPoints_eq_empty hhigh]
      simp

/-- **When the over-exposure guard works**: for either detector, at a frame exactly when it
fits the frame; and at all frames of one size exactly when a quarter of all pixels, rounded
down, is no more than a quarter of the sample, or the threshold is past the brightest byte. -/
theorem guard_works_iff (d : Detector Img) (now : ℚ) (b : PixelBuffer Img)
    (hk : 0 < d.pixelsToSkip) (hmin : d.minRaySize = 1) :
    (GuardWorks DetectionVC.captureOutput d now b ↔ GuardFits (ready d b) b) ∧
      (GuardWorks DetectionHelper.capturedOutput d now b ↔ GuardFits (ready d b) b) ∧
      ((ready d b).width ≤ (ready d b).bytesPerRowofPlane → 0 ≤ cutoff d →
        ((∀ plane, GuardFits (ready d b) { b with plane := plane }) ↔
          (ready d b).width * (ready d b).height / 4 ≤ (sampled (ready d b)).card / 4 ∨
            255 ≤ cutoff d)) := by
  have hk' : 0 < (ready d b).pixelsToSkip := by rwa [ready_pixelsToSkip]
  have hmin' : (ready d b).minRaySize = 1 := by rw [ready_minRaySize, hmin]
  have hcut : cutoff (ready d b) = cutoff d := by simp [cutoff]
  refine ⟨?_, ?_, fun hrow hlow => ?_⟩
  · unfold GuardWorks
    rw [notAnEvent_captureOutput_iff]
    exact guard_iff hk' hmin'
  · unfold GuardWorks
    rw [notAnEvent_capturedOutput_iff]
    exact guard_iff hk' hmin'
  · rw [← hcut] at hlow ⊢
    exact forall_guardFits_iff hk' hrow hlow

/-- A white frame of three columns and rows is rejected: four sampled pixels are more than a
quarter of nine. -/
theorem guard_works_three :
    GuardWorks DetectionVC.captureOutput (DetectionVC.initial 0 ()) 1 (plain () 3 3 3 255) :=
  (guard_works_iff _ _ _ (by decide) rfl).1.mpr (Or.inr (by decide +kernel))

/-- **A white frame passes** when it has four columns and rows: its sample of four is a
quarter of all its pixels, and the frame is an event. -/
theorem not_always_guarded :
    ¬ ∀ (now : ℚ) (b : PixelBuffer Unit),
      GuardWorks DetectionVC.captureOutput (DetectionVC.initial 0 ()) now b := by
  intro h
  have hover : Overexposed (ready (DetectionVC.initial 0 ()) (plain () 4 4 4 255))
      (plain () 4 4 4 255) := by
    unfold Overexposed
    decide +kernel
  have hnone := (h 1 (plain () 4 4 4 255) hover).numEvents
  exact absurd hnone (by decide +kernel)

end Solta.Exposure
