import Solta.Brightness
import Solta.Geometry
import Solta.Lib.Sampling

/-!
Spots of bright pixels.

A rectangle of bright pixels holds a multiple of the stride in every `k` columns and in every
`k` rows, wherever it lies, so a scan of the frame's own sample counts a spot as large as the
stride. The scan uses the geometry in the cache, which is that of an earlier frame of the same
width: over all contents of a frame it misses no spot exactly when the cache samples the frame
as the frame's own geometry would.
-/

namespace Solta.Spots

open Lib.Stride Solta.Imaging Solta.Brightness Solta.Geometry

variable {Img : Type} {d : Detector Img} {now : ℚ} {b : PixelBuffer Img} {x y m n : ℕ}

/-- The byte of a pixel, by the geometry of its own frame. -/
def pixel (b : PixelBuffer Img) (p : ℕ × ℕ) : ℕ :=
  (b.plane (p.1 + p.2 * b.bytesPerRowOfPlane)).toNat

/-- The rectangle lies inside the frame, and all its pixels are above the cutoff. -/
structure Spot (d : Detector Img) (b : PixelBuffer Img) (x y m n : ℕ) : Prop where
  width : x + m ≤ b.width
  height : y + n ≤ b.height
  bright : ∀ p ∈ rectangle x y m n, cutoff d < pixel b p

/-- No other pixel of the frame is above the cutoff. -/
def Alone (d : Detector Img) (b : PixelBuffer Img) (x y m n : ℕ) : Prop :=
  ∀ p : ℕ × ℕ, p.1 < b.width → p.2 < b.height → cutoff d < pixel b p → p ∈ rectangle x y m n

/-- One pixel is counted, and both detectors count the frame as an event. -/
structure Once (d : Detector Img) (now : ℚ) (b : PixelBuffer Img) : Prop where
  count : (scan (ready d b) b).numBrightPixels = 1
  handed : (DetectionVC.captureOutput d now b).handed = some 1
  vc : (DetectionVC.captureOutput d now b).detector.numEvents = d.numEvents + 1
  helper : (DetectionHelper.capturedOutput d now b).detector.numEvents = d.numEvents + 1

/-- A bright rectangle is counted at least once for every full square of the stride it holds
and, when nothing else is bright, at most as often as squares of the stride are needed to
cover it; a square as large as the stride is counted once and makes an event. -/
def NotMissed (d : Detector Img) (now : ℚ) (b : PixelBuffer Img) : Prop :=
  ∀ x y m n, Spot d b x y m n →
    m / d.pixelsToSkip * (n / d.pixelsToSkip) ≤ (scan (ready d b) b).numBrightPixels ∧
      (Alone d b x y m n →
        (scan (ready d b) b).numBrightPixels ≤
          count m d.pixelsToSkip * count n d.pixelsToSkip ∧
        (2 ≤ d.pixelsToSkip → m = d.pixelsToSkip → n = d.pixelsToSkip → Once d now b))

/-- The cache fits the frame as far as its spots go, when all its bytes are bright. -/
structure AllBrightFit (d : Detector Img) (b : PixelBuffer Img) : Prop where
  rows : count d.height d.pixelsToSkip ≤ count b.height d.pixelsToSkip
  squares : b.width / d.pixelsToSkip * (b.height / d.pixelsToSkip) ≤
    count b.width d.pixelsToSkip * count d.height d.pixelsToSkip
  guard : 2 ≤ d.pixelsToSkip → b.width = d.pixelsToSkip → b.height = d.pixelsToSkip →
    4 ≤ b.width * d.height

/-- The cache samples the frame as its own geometry would, and its size lets the guard pass a
single pixel. -/
structure BrightFit (d : Detector Img) (b : PixelBuffer Img) : Prop where
  alike : SamplesAlike b.width b.height b.bytesPerRowOfPlane d.height d.bytesPerRowofPlane
    d.pixelsToSkip
  guard : 2 ≤ d.pixelsToSkip → d.pixelsToSkip ≤ b.width → d.pixelsToSkip ≤ b.height →
    4 ≤ b.width * d.height

/-- If the frame has the cached width, the cache fits it; a cutoff below all bytes asks less,
and one above them nothing. -/
def SpotsFit (d : Detector Img) (b : PixelBuffer Img) : Prop :=
  d.planeWidth = b.widthOfPlane → b.width ≠ 0 → cutoff d < 255 →
    if cutoff d < 0 then AllBrightFit d b else BrightFit d b

instance (d : Detector Img) (b : PixelBuffer Img) : Decidable (AllBrightFit d b) :=
  decidable_of_iff (_ ∧ _ ∧ _) ⟨fun h => ⟨h.1, h.2.1, h.2.2⟩, fun h => ⟨h.rows, h.squares, h.guard⟩⟩

instance (d : Detector Img) (b : PixelBuffer Img) : Decidable (BrightFit d b) :=
  decidable_of_iff (_ ∧ _) ⟨fun h => ⟨h.1, h.2⟩, fun h => ⟨h.alike, h.guard⟩⟩

instance (d : Detector Img) (b : PixelBuffer Img) : Decidable (SpotsFit d b) := by
  unfold SpotsFit; infer_instance

/-! ### The count in terms of bright addresses -/

/-- The addresses whose bytes are above the cutoff. -/
def bright (d : Detector Img) (b : PixelBuffer Img) (i : ℕ) : Bool :=
  decide (cutoff d < (b.plane i).toNat)

lemma spot_iff : Spot d b x y m n ↔
    SpotAt (bright d b) b.width b.height b.bytesPerRowOfPlane x y m n :=
  ⟨fun h => ⟨h.width, h.height, fun p hp => decide_eq_true (h.bright p hp)⟩,
    fun h => ⟨h.width, h.height, fun p hp => of_decide_eq_true (h.all p hp)⟩⟩

lemma alone_iff : Alone d b x y m n ↔
    AloneAt (bright d b) b.width b.height b.bytesPerRowOfPlane x y m n := by
  simp [Alone, AloneAt, bright, pixel]

lemma cutoff_ready (d : Detector Img) (b : PixelBuffer Img) : cutoff (ready d b) = cutoff d := by
  unfold cutoff
  rw [ready_getIntensityThreshold]

lemma numBrightPixels_eq (hk : 0 < d.pixelsToSkip) :
    (scan (ready d b) b).numBrightPixels = (brightAt (bright d b) (ready d b).width
      (ready d b).height (ready d b).bytesPerRowofPlane d.pixelsToSkip).card := by
  have hk' : 0 < (ready d b).pixelsToSkip := by rwa [ready_pixelsToSkip]
  rw [scan_numBrightPixels hk', brightPoints, sampled, ready_pixelsToSkip, brightAt]
  congr 1
  ext p
  simp [IsBright, cutoff_ready, byte, bright]

/-- A single bright pixel makes an event when a quarter of the cached size allows one. -/
lemma once_iff (hmin : d.minRaySize = 1) (hone : (scan (ready d b) b).numBrightPixels = 1) :
    Once d now b ↔ 4 ≤ (ready d b).width * (ready d b).height := by
  have hevent : isEvent (ready d b) (scan (ready d b) b) = true ↔
      4 ≤ (ready d b).width * (ready d b).height := by
    unfold isEvent
    rw [Bool.and_eq_true, decide_eq_true_iff, decide_eq_true_iff, hone, ready_minRaySize, hmin]
    omega
  constructor
  · intro h
    by_contra hsmall
    have hhanded := h.handed
    rw [DetectionVC.captureOutput_eq, if_neg (mt hevent.mp hsmall)] at hhanded
    simp at hhanded
  · intro h
    have hev := hevent.mpr h
    refine ⟨hone, ?_, ?_, ?_⟩
    · rw [DetectionVC.captureOutput_eq, if_pos hev, hone]
    · rw [DetectionVC.captureOutput_eq, if_pos hev]
      simp
    · rw [DetectionHelper.capturedOutput_eq, if_pos hev]
      split <;> simp

lemma byte_le_255 (v : UInt8) : (v.toNat : ℚ) ≤ 255 := by
  exact_mod_cast Nat.le_of_lt_succ v.toNat_lt

lemma count_self {k : ℕ} (hk : 0 < k) : count k k = 1 := by
  have h1 := (count_le_iff (n := k) (c := 1) hk).mpr (by omega)
  have h2 := (count_pos_iff (n := k) hk).mpr hk
  omega

/-! ### Geometries that fit -/

/-- A scan that counts the spots misses none. -/
lemma notMissed_of_countsSpots (hk : 0 < d.pixelsToSkip) (hmin : d.minRaySize = 1)
    (hw : (ready d b).width = b.width)
    (hc : CountsSpots b.width b.height b.bytesPerRowOfPlane (ready d b).height
      (ready d b).bytesPerRowofPlane d.pixelsToSkip)
    (hguard : 2 ≤ d.pixelsToSkip → d.pixelsToSkip ≤ b.width → d.pixelsToSkip ≤ b.height →
      4 ≤ b.width * (ready d b).height) : NotMissed d now b := by
  intro x y m n hspot
  have hcount := numBrightPixels_eq (b := b) hk
  rw [hw] at hcount
  obtain ⟨hle, hge⟩ := hc (bright d b) x y m n (spot_iff.mp hspot)
  rw [← hcount] at hle hge
  refine ⟨hle, fun halone => ⟨hge (alone_iff.mp halone), fun hk2 hm hn => ?_⟩⟩
  have hge := hge (alone_iff.mp halone)
  rw [hm, hn, Nat.div_self hk] at hle
  rw [hm, hn, count_self hk] at hge
  have hwidth := hspot.width
  have hheight := hspot.height
  refine (once_iff hmin (by omega)).mpr ?_
  rw [hw]
  exact hguard hk2 (by omega) (by omega)

/-- Where no pixel is bright and no point is counted, no spot is missed. -/
lemma notMissed_of_dark (hk : 0 < d.pixelsToSkip)
    (hdark : b.width = 0 ∨ 255 ≤ cutoff d) (hw : (ready d b).width = b.width) :
    NotMissed d now b := by
  have hzero : (scan (ready d b) b).numBrightPixels = 0 := by
    rw [numBrightPixels_eq hk, hw, Finset.card_eq_zero]
    refine Finset.eq_empty_of_forall_notMem fun p hp => ?_
    obtain ⟨⟨hpw, -⟩, hbright⟩ := mem_brightAt.mp hp
    rcases hdark with hempty | hhigh
    · omega
    · exact absurd (of_decide_eq_true hbright) (hhigh.trans' (byte_le_255 _)).not_gt
  intro x y m n hspot
  have hwidth := hspot.width
  have hheight := hspot.height
  have hempty : m = 0 ∨ n = 0 := by
    by_contra h
    have hmem : (x, y) ∈ rectangle x y m n := mem_rectangle.mpr (by dsimp only; omega)
    rcases hdark with hempty | hhigh
    · omega
    · exact absurd (hspot.bright _ hmem) (hhigh.trans' (byte_le_255 _)).not_gt
  rw [hzero]
  refine ⟨?_, fun _ => ⟨Nat.zero_le _, fun _ hm hn => by omega⟩⟩
  rcases hempty with rfl | rfl <;> simp

/-! ### All bytes bright -/

section

variable (hneg : cutoff d < 0)
include hneg

lemma cutoff_lt_pixel (p : ℕ × ℕ) : cutoff d < pixel b p := hneg.trans_le (Nat.cast_nonneg _)

lemma numBrightPixels_of_neg (hk : 0 < d.pixelsToSkip) :
    (scan (ready d b) b).numBrightPixels =
      count (ready d b).width d.pixelsToSkip * count (ready d b).height d.pixelsToSkip := by
  have hall : bright d b = fun _ => true :=
    funext fun i => decide_eq_true (hneg.trans_le (Nat.cast_nonneg _))
  rw [numBrightPixels_eq hk, hall, brightAt, Finset.filter_true_of_mem fun _ _ => rfl,
    card_points hk]

/-- The whole frame is a spot that is alone. -/
lemma NotMissed.allBrightFit (hk : 0 < d.pixelsToSkip) (hmin : d.minRaySize = 1)
    (hw : (ready d b).width = b.width) (hh : (ready d b).height = d.height)
    (hpos : b.width ≠ 0) (h : NotMissed d now b) : AllBrightFit d b := by
  have hcount := numBrightPixels_of_neg (b := b) hneg hk
  rw [hw, hh] at hcount
  have hspot : Spot d b 0 0 b.width b.height :=
    ⟨by omega, by omega, fun p _ => cutoff_lt_pixel hneg p⟩
  have halone : Alone d b 0 0 b.width b.height :=
    fun p hpw hph _ => mem_rectangle.mpr (by omega)
  obtain ⟨hle, hall⟩ := h 0 0 b.width b.height hspot
  obtain ⟨hge, honce⟩ := hall halone
  rw [hcount] at hle hge
  have hcw : 0 < count b.width d.pixelsToSkip := (count_pos_iff hk).mpr (by omega)
  refine ⟨Nat.le_of_mul_le_mul_left hge hcw, hle, fun hk2 hkw hkh => ?_⟩
  have hone := honce hk2 hkw hkh
  rw [← hw, ← hh]
  exact (once_iff hmin hone.count).mp hone

/-- A spot that is alone is the whole frame, or the frame has no pixel. -/
lemma AllBrightFit.notMissed (hk : 0 < d.pixelsToSkip) (hmin : d.minRaySize = 1)
    (hw : (ready d b).width = b.width) (hh : (ready d b).height = d.height)
    (hpos : b.width ≠ 0) (h : AllBrightFit d b) : NotMissed d now b := by
  intro x y m n hspot
  have hcount := numBrightPixels_of_neg (b := b) hneg hk
  rw [hw, hh] at hcount
  have hwidth := hspot.width
  have hheight := hspot.height
  have hle : m / d.pixelsToSkip * (n / d.pixelsToSkip) ≤
      (scan (ready d b) b).numBrightPixels := by
    rw [hcount]
    exact le_trans (Nat.mul_le_mul (Nat.div_le_div_right (by omega))
      (Nat.div_le_div_right (by omega))) h.squares
  refine ⟨hle, fun halone => ?_⟩
  have hwhole : b.height = 0 ∨ m = b.width ∧ n = b.height := by
    by_contra hne
    have hfirst := mem_rectangle.mp (halone (0, 0) (by dsimp only; omega) (by dsimp only; omega)
      (cutoff_lt_pixel hneg _))
    have hlast := mem_rectangle.mp (halone (b.width - 1, b.height - 1) (by dsimp only; omega)
      (by dsimp only; omega) (cutoff_lt_pixel hneg _))
    dsimp only at hfirst hlast
    omega
  have hge : (scan (ready d b) b).numBrightPixels ≤
      count m d.pixelsToSkip * count n d.pixelsToSkip := by
    rw [hcount]
    rcases hwhole with hzero | ⟨rfl, rfl⟩
    · have hrows := h.rows
      rw [hzero, (count_le_iff (n := 0) (c := 0) hk).mpr (by omega) |> Nat.le_zero.mp] at hrows
      rw [Nat.le_zero.mp hrows, Nat.mul_zero]
      exact Nat.zero_le _
    · exact Nat.mul_le_mul_left _ h.rows
  refine ⟨hge, fun hk2 hm hn => ?_⟩
  obtain ⟨hmw, hnh⟩ := hwhole.resolve_left (by omega)
  rw [hm, hn, Nat.div_self hk] at hle
  rw [hm, hn, count_self hk] at hge
  refine (once_iff hmin (by omega)).mpr ?_
  rw [hw, hh]
  exact h.guard hk2 (by omega) (by omega)

end

/-! ### Contents -/

/-- The contents that are bright at given addresses. -/
def lit (shines : ℕ → Bool) (i : ℕ) : UInt8 := if shines i then 255 else 0

lemma bright_lit (hlow : 0 ≤ cutoff d) (hhigh : cutoff d < 255) (shines : ℕ → Bool) :
    bright d { b with plane := lit shines } = shines := by
  funext i
  unfold bright lit
  by_cases h : shines i = true
  · simpa [h] using hhigh
  · simpa [h] using hlow

/-- Contents of all kinds show whether the scan counts the spots. -/
lemma countsSpots_of_notMissed (hk : 0 < d.pixelsToSkip) (hlow : 0 ≤ cutoff d)
    (hhigh : cutoff d < 255) (hw : (ready d b).width = b.width)
    (h : ∀ plane, NotMissed d now { b with plane := plane }) :
    CountsSpots b.width b.height b.bytesPerRowOfPlane (ready d b).height
      (ready d b).bytesPerRowofPlane d.pixelsToSkip := by
  intro shines x y m n hspot
  have hbright := bright_lit (b := b) hlow hhigh shines
  have hcount := numBrightPixels_eq (b := { b with plane := lit shines }) hk
  have hready : ready d { b with plane := lit shines } = ready d b := rfl
  rw [hbright, hready, hw] at hcount
  have hspot' : Spot d { b with plane := lit shines } x y m n := by
    rw [spot_iff, hbright]
    exact hspot
  obtain ⟨hle, hge⟩ := h (lit shines) x y m n hspot'
  rw [hready, hcount] at hle hge
  refine ⟨hle, fun halone => (hge ?_).1⟩
  rw [alone_iff, hbright]
  exact halone

/-- A lone square as large as the stride shows whether the guard lets one pixel pass. -/
lemma guard_of_notMissed (hmin : d.minRaySize = 1)
    (hlow : 0 ≤ cutoff d) (hhigh : cutoff d < 255) (hrow : b.width ≤ b.bytesPerRowOfPlane)
    (h : ∀ plane, NotMissed d now { b with plane := plane }) (hk2 : 2 ≤ d.pixelsToSkip)
    (hkw : d.pixelsToSkip ≤ b.width) (hkh : d.pixelsToSkip ≤ b.height) :
    4 ≤ (ready d b).width * (ready d b).height := by
  let k := d.pixelsToSkip
  let shines : ℕ → Bool := fun i =>
    decide (∃ q ∈ rectangle 0 0 k k, i = q.1 + q.2 * b.bytesPerRowOfPlane)
  have hbright := bright_lit (b := b) hlow hhigh shines
  have hspot : Spot d { b with plane := lit shines } 0 0 k k := by
    rw [spot_iff, hbright]
    exact ⟨by dsimp only; omega, by dsimp only; omega, fun q hq => decide_eq_true ⟨q, hq, rfl⟩⟩
  have halone : Alone d { b with plane := lit shines } 0 0 k k := by
    rw [alone_iff, hbright]
    intro p hpw hph hp
    obtain ⟨q, hq, heq⟩ := of_decide_eq_true hp
    obtain ⟨⟨-, hq1⟩, -⟩ := mem_rectangle.mp hq
    dsimp only at hpw heq
    obtain ⟨h1, h2⟩ := addr_inj (by omega) (by omega) heq
    rwa [Prod.ext h1 h2]
  have honce := ((h (lit shines) 0 0 k k hspot).2 halone).2 hk2 rfl rfl
  exact (once_iff hmin honce.count).mp honce

/-! ### The cache -/

/-- **When no spot as large as the stride is missed**: over all contents of a frame, exactly
when the cache fits the frame. -/
theorem no_spot_missed_iff (d : Detector Img) (now : ℚ) (b : PixelBuffer Img) (hd : Cache d)
    (hb : Planar b) (hmin : d.minRaySize = 1) :
    (∀ plane, NotMissed d now { b with plane := plane }) ↔ SpotsFit d b := by
  have hk := hd.skip
  by_cases hhit : d.planeWidth = b.widthOfPlane
  · have hw : (ready d b).width = b.width := by
      rw [ready_hit hhit, ← hb.width, ← hhit]
      exact hd.width.symm
    have hh : (ready d b).height = d.height := by rw [ready_hit hhit]
    have hr : (ready d b).bytesPerRowofPlane = d.bytesPerRowofPlane := by rw [ready_hit hhit]
    unfold SpotsFit
    rw [imp_iff_right hhit]
    by_cases hzero : b.width = 0
    · refine iff_of_true (fun plane => ?_) (absurd hzero)
      exact notMissed_of_dark (b := { b with plane := plane }) hk (.inl hzero) hw
    rw [imp_iff_right hzero]
    by_cases hhigh : cutoff d < 255
    · rw [imp_iff_right hhigh]
      split
      · rename_i hneg
        refine ⟨fun h => (h b.plane).allBrightFit hneg hk hmin hw hh hzero, fun h plane => ?_⟩
        exact AllBrightFit.notMissed (b := { b with plane := plane }) hneg hk hmin hw hh hzero
          ⟨h.rows, h.squares, h.guard⟩
      · rename_i hlow
        rw [not_lt] at hlow
        constructor
        · intro h
          have hc := countsSpots_of_notMissed hk hlow hhigh hw h
          rw [hh, hr] at hc
          refine ⟨(countsSpots_iff hk (by omega) hb.row).mp hc, fun hk2 hkw hkh => ?_⟩
          have hguard := guard_of_notMissed hmin hlow hhigh hb.row h hk2 hkw hkh
          rwa [hw, hh] at hguard
        · intro h plane
          have hc := (countsSpots_iff hk (by omega) hb.row).mpr h.alike
          refine notMissed_of_countsSpots (b := { b with plane := plane }) hk hmin hw ?_ ?_
          · rw [← hh, ← hr] at hc
            exact hc
          · intro hk2 hkw hkh
            have hguard := h.guard hk2 hkw hkh
            rw [← hh] at hguard
            exact hguard
    · refine iff_of_true (fun plane => ?_) (absurd · hhigh)
      exact notMissed_of_dark (b := { b with plane := plane }) hk (.inr (not_lt.mp hhigh)) hw
  · -- the geometry has just been read again
    obtain ⟨-, hw, hh, hr⟩ := ready_miss hhit
    refine iff_of_true (fun plane => ?_) (absurd · hhit)
    have hc : CountsSpots b.width b.height b.bytesPerRowOfPlane (ready d b).height
        (ready d b).bytesPerRowofPlane d.pixelsToSkip := by
      rw [hh, hr]
      exact countsSpots_self hk
    refine notMissed_of_countsSpots (b := { b with plane := plane }) hk hmin hw hc ?_
    intro hk2 hkw hkh
    have harea : 2 * 2 ≤ b.width * b.height :=
      Nat.mul_le_mul (hk2.trans hkw) (hk2.trans hkh)
    rw [← hh] at harea
    exact harea

/-- The detector after a dark frame of the given size. -/
def afterDark (width height : ℕ) : Detector Unit :=
  (DetectionVC.captureOutput (DetectionVC.initial 0 ()) 0 (plain () width height width 0)).detector

lemma cache_afterDark (width height : ℕ) : Cache (afterDark width height) :=
  DetectionVC.cache_act (a := .frame 0 (plain () width height width 0))
    (cache_initial (by decide) 0 ()) (DetectionVC.planar_plain () (Nat.le_refl width) 0) rfl

/-- A frame of five columns and rows with a bright square of two at `(1, 1)`. -/
def spotted : PixelBuffer Unit :=
  { plain () 5 5 5 0 with plane := fun i => if i ∈ [6, 7, 11, 12] then 255 else 0 }

/-- The square in the frame is counted once and makes an event. -/
theorem spotted_not_missed : Once (afterDark 5 5) 1 spotted := by
  have hspot : Spot (afterDark 5 5) spotted 1 1 2 2 :=
    ⟨by decide, by decide, by decide +kernel⟩
  have halone : Alone (afterDark 5 5) spotted 1 1 2 2 := by
    intro p hw hh
    have hall : ∀ q ∈ Finset.range 5 ×ˢ Finset.range 5, cutoff (afterDark 5 5) < pixel spotted q →
        q ∈ rectangle 1 1 2 2 := by decide +kernel
    exact hall p (Finset.mem_product.mpr ⟨Finset.mem_range.mpr hw, Finset.mem_range.mpr hh⟩)
  have hmissed := (no_spot_missed_iff (afterDark 5 5) 1 spotted (cache_afterDark 5 5)
    ⟨rfl, rfl, Nat.le_refl 5⟩ (by decide +kernel)).mpr (by decide +kernel) spotted.plane
  have hskip : (afterDark 5 5).pixelsToSkip = 2 := by decide +kernel
  exact ((hmissed 1 1 2 2 hspot).2 halone).2 hskip.ge hskip.symm hskip.symm

/-- A frame of two columns and four rows whose lower half is bright. -/
def lowerHalf : PixelBuffer Unit :=
  { plain () 2 4 2 0 with plane := fun i => if 4 ≤ i then 255 else 0 }

/-- **A square below the cached height.** After a frame of two rows nothing of the lower half of
a frame of four is counted. -/
theorem not_always_no_spot_missed :
    ¬ ∀ (d : Detector Unit) (now : ℚ) (b : PixelBuffer Unit), Cache d → Planar b →
      d.minRaySize = 1 → NotMissed d now b := by
  intro h
  have hspot : Spot (afterDark 2 2) lowerHalf 0 2 2 2 :=
    ⟨by decide, by decide, by decide +kernel⟩
  have hmissed := (h (afterDark 2 2) 1 lowerHalf (cache_afterDark 2 2)
    ⟨rfl, rfl, Nat.le_refl 2⟩ (by decide +kernel) 0 2 2 2 hspot).1
  revert hmissed
  decide +kernel

end Solta.Spots
