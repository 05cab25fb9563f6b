import Mathlib.Data.Set.Basic
import Solta.Imaging
import Solta.Lib.Run

/-!
Which bytes a scan reads.

The geometry of the frame is cached and read again only when the width of plane 0 changes.
So the indices the scan reads are those of the frame at hand as long as the cached height
and row distance fit every frame of the cached width, and only then.
-/

namespace Solta.Geometry

open Lib.Run Lib.Stride Solta.Imaging

variable {Img : Type}

/-- A planar frame: plane 0 has the size of the frame, in rows at least that wide. -/
structure Planar (b : PixelBuffer Img) : Prop where
  width : b.widthOfPlane = b.width
  height : b.heightOfPlane = b.height
  row : b.width ≤ b.bytesPerRowOfPlane

/-- The indices of the sampled pixels of a frame, by the geometry of that frame. -/
def ownIndices (k : ℕ) (b : PixelBuffer Img) : Set ℕ :=
  {i | ∃ x y, x < b.width ∧ y < b.height ∧ k ∣ x ∧ k ∣ y ∧ i = x + y * b.bytesPerRowOfPlane}

/-- The cache describes some planar frame, or nothing yet. -/
structure Cache (d : Detector Img) : Prop where
  width : d.planeWidth = d.width
  row : d.width ≤ d.bytesPerRowofPlane
  skip : 0 < d.pixelsToSkip

/-- If the frame has the cached width, the cached height samples as many rows, and the
cached row distance is the frame's when there is more than one. -/
def CacheFits (d : Detector Img) (b : PixelBuffer Img) : Prop :=
  d.planeWidth = b.widthOfPlane → b.width = 0 ∨
    (count d.height d.pixelsToSkip = count b.height d.pixelsToSkip ∧
      (count d.height d.pixelsToSkip ≤ 1 ∨ d.bytesPerRowofPlane = b.bytesPerRowOfPlane))

instance (d : Detector Img) (b : PixelBuffer Img) : Decidable (CacheFits d b) := by
  unfold CacheFits; infer_instance

lemma mem_ownIndices {k i : ℕ} (hk : 0 < k) {b : PixelBuffer Img} :
    i ∈ ownIndices k b ↔ i ∈ addresses b.width b.height b.bytesPerRowOfPlane k :=
  (mem_addresses hk).symm

/-- The indices of a planar frame lie inside its plane 0. -/
lemma ownIndices_inBounds {k i : ℕ} (hk : 0 < k) {b : PixelBuffer Img} (hb : Planar b)
    (hi : i ∈ ownIndices k b) : i < b.bytesPerRowOfPlane * b.heightOfPlane := by
  rw [hb.height]
  exact lt_of_mem_addresses hk hb.row ((mem_ownIndices hk).mp hi)

/-! ### One frame -/

lemma ready_hit {d : Detector Img} {b : PixelBuffer Img} (h : d.planeWidth = b.widthOfPlane) :
    ready d b = { d with currentState := .RUNNING, numFrames := d.numFrames + 1 } := by
  unfold ready refresh
  exact if_neg (not_not_intro h)

lemma ready_miss {d : Detector Img} {b : PixelBuffer Img} (h : d.planeWidth ≠ b.widthOfPlane) :
    (ready d b).planeWidth = b.widthOfPlane ∧ (ready d b).width = b.width ∧
      (ready d b).height = b.height ∧ (ready d b).bytesPerRowofPlane = b.bytesPerRowOfPlane := by
  unfold ready refresh
  rw [if_pos h]
  exact ⟨rfl, rfl, rfl, rfl⟩

/-- A planar frame keeps the cache sound. -/
lemma cache_ready {d : Detector Img} {b : PixelBuffer Img} (hd : Cache d) (hb : Planar b) :
    Cache (ready d b) := by
  by_cases h : d.planeWidth = b.widthOfPlane
  · rw [ready_hit h]
    exact ⟨hd.width, hd.row, hd.skip⟩
  · obtain ⟨hp, hw, -, hr⟩ := ready_miss h
    refine ⟨?_, ?_, ?_⟩
    · rw [hp, hw, hb.width]
    · rw [hw, hr]
      exact hb.row
    · rw [ready_pixelsToSkip]
      exact hd.skip

/-- **One frame**: the scan reads the frame's own indices exactly when the cache fits. -/
theorem scan_reads_own_iff {d : Detector Img} {b : PixelBuffer Img} (hd : Cache d)
    (hb : Planar b) :
    (∀ i, i ∈ (scan (ready d b) b).reads ↔ i ∈ ownIndices d.pixelsToSkip b) ↔
      CacheFits d b := by
  rw [scan_reads, ready_pixelsToSkip]
  simp only [mem_ownIndices hd.skip]
  by_cases h : d.planeWidth = b.widthOfPlane
  · -- the cached geometry is used: its width is the frame's
    have hw : d.width = b.width := by rw [← hd.width, h, hb.width]
    rw [ready_hit h]
    dsimp only
    unfold CacheFits
    rw [hw]
    rcases Nat.eq_zero_or_pos b.width with h0 | hpos
    · refine ⟨fun _ _ => Or.inl h0, fun _ i => ?_⟩
      rw [mem_addresses hd.skip, mem_addresses hd.skip, h0]
      simp
    · rw [addresses_eq_iff hd.skip hpos (hw ▸ hd.row) hb.row]
      refine ⟨fun hf _ => Or.inr hf, fun hf => ?_⟩
      exact (hf h).resolve_left (by omega)
  · -- the geometry has just been read again
    obtain ⟨-, hw, hh, hr⟩ := ready_miss h
    rw [hw, hh, hr]
    exact ⟨fun _ he => absurd he h, fun _ _ => Iff.rfl⟩

/-! ### Runs -/

/-- The frames of an action are planar. -/
def PlanarAct : Act Img → Prop
  | .frame _ b => Planar b
  | .tick _ => True

/-- A handler that reads `reads` of a frame reads exactly the frame's own indices. -/
def ReadsOwn (reads : Detector Img → ℚ → PixelBuffer Img → List ℕ) (d : Detector Img) :
    Act Img → Prop
  | .frame now b => ∀ i, i ∈ reads d now b ↔ i ∈ ownIndices d.pixelsToSkip b
  | .tick _ => True

def Fits (d : Detector Img) : Act Img → Prop
  | .frame _ b => CacheFits d b
  | .tick _ => True

instance (d : Detector Img) : ∀ a, Decidable (Fits d a)
  | .frame _ b => inferInstanceAs (Decidable (CacheFits d b))
  | .tick _ => isTrue trivial

lemma cache_initial {k : ℕ} (hk : 0 < k) (start : ℚ) (img : Img) : Cache (initial k start img) :=
  ⟨rfl, Nat.le_refl 0, hk⟩

lemma cache_updateThreshold {d : Detector Img} (hd : Cache d) (now : ℚ) :
    Cache (updateThreshold now d) := by
  obtain ⟨table, h⟩ := updateThreshold_eq now d
  rw [h]
  exact ⟨hd.width, hd.row, hd.skip⟩

/-- A handler that scans when ready reads its own indices exactly when the cache fits. -/
lemma reads_own_step {reads : Detector Img → ℚ → PixelBuffer Img → List ℕ}
    (hreads : ∀ d now b, reads d now b = (scan (ready d b) b).reads) {d : Detector Img}
    {a : Act Img} (hd : Cache d) (ha : PlanarAct a) : ReadsOwn reads d a ↔ Fits d a := by
  cases a with
  | frame now b =>
    unfold ReadsOwn Fits
    dsimp only
    rw [hreads]
    exact scan_reads_own_iff hd ha
  | tick now => exact Iff.rfl

end Solta.Geometry

namespace Solta.DetectionVC

open Lib.Run Lib.Stride Solta.Imaging Solta.Geometry

variable {Img : Type}

/-- The indices `captureOutput` reads. -/
def reads (d : Detector Img) (now : ℚ) (b : PixelBuffer Img) : List ℕ :=
  (captureOutput d now b).reads

lemma reads_eq (d : Detector Img) (now : ℚ) (b : PixelBuffer Img) :
    reads d now b = (scan (ready d b) b).reads := by
  unfold reads
  rw [captureOutput_eq]
  split <;> rfl

lemma cache_act {d e : Detector Img} {a : Act Img} (hd : Cache d) (ha : PlanarAct a)
    (h : act d a = some e) : Cache e := by
  cases a with
  | frame now b =>
    obtain rfl : (captureOutput d now b).detector = e := by simpa [act] using h
    have hr := cache_ready hd ha
    rw [captureOutput_eq]
    split <;> exact ⟨hr.width, hr.row, hr.skip⟩
  | tick now =>
    obtain rfl : updateThreshold now d = e := by simpa [act] using h
    exact cache_updateThreshold hd now

/-- **Which runs read the frame at hand.** Over planar frames and ticks in any order, every
frame is read at its own indices exactly when every frame meets a cache that fits it. -/
theorem reads_own_iff_fits (start : ℚ) (img : Img) (as : List (Act Img))
    (hp : ∀ a ∈ as, PlanarAct a) :
    Along act (ReadsOwn reads) (initial start img) as ↔ Along act Fits (initial start img) as :=
  along_congr (I := Cache) (E := fun _ a => PlanarAct a)
    (fun _ _ _ hd ha h => cache_act hd ha h) (fun _ _ hd ha => reads_own_step reads_eq hd ha)
    (cache_initial (by decide) start img) (along_of_mem _ hp)

lemma planar_plain (img : Img) {w h row : ℕ} (hrow : w ≤ row) (v : UInt8) :
    Planar (plain img w h row v) :=
  ⟨rfl, rfl, hrow⟩

/-- Two frames of one size: the second is read at its own indices. -/
theorem reads_own_two_frames :
    Along act (ReadsOwn reads) (initial 0 ())
      [.frame 0 (plain () 4 4 4 0), .tick 5, .frame 6 (plain () 4 4 4 0)] :=
  (reads_own_iff_fits 0 () _ (by simp [PlanarAct, planar_plain])).mpr (by decide +kernel)

/-- **The scan can leave the frame.** After a frame of four rows, a frame of two rows and
the same width is read at index 4, the end of its plane. -/
theorem not_always_reads_own :
    ¬ ∀ (start : ℚ) (img : Unit) (as : List (Act Unit)), (∀ a ∈ as, PlanarAct a) →
      Along act (ReadsOwn reads) (initial start img) as := by
  intro h
  have hrun := h 0 () [.frame 0 (plain () 2 4 2 0), .frame 1 (plain () 2 2 2 0)]
    (by simp [PlanarAct, planar_plain])
  have hread := (hrun.2 _ rfl).1 4
  have hmem : 4 ∈ reads (captureOutput (initial 0 ()) 0 (plain () 2 4 2 0)).detector 1
      (plain () 2 2 2 0) := by decide +kernel
  obtain ⟨x, y, hx, hy, -, -, heq⟩ := hread.mp hmem
  simp only [plain] at hx hy heq
  omega

end Solta.DetectionVC

namespace Solta.DetectionHelper

open Lib.Run Lib.Stride Solta.Imaging Solta.Geometry

variable {Img : Type}

/-- The indices `capturedOutput` reads. -/
def reads (d : Detector Img) (now : ℚ) (b : PixelBuffer Img) : List ℕ :=
  (capturedOutput d now b).reads

lemma reads_eq (d : Detector Img) (now : ℚ) (b : PixelBuffer Img) :
    reads d now b = (scan (ready d b) b).reads := by
  unfold reads
  rw [capturedOutput_eq]
  split_ifs <;> rfl

lemma cache_act {d e : Detector Img} {a : Act Img} (hd : Cache d) (ha : PlanarAct a)
    (h : act d a = some e) : Cache e := by
  cases a with
  | frame now b =>
    obtain rfl : (capturedOutput d now b).detector = e := by simpa [act] using h
    have hr := cache_ready hd ha
    rw [capturedOutput_eq]
    split_ifs <;> exact ⟨hr.width, hr.row, hr.skip⟩
  | tick now =>
    obtain rfl : updateThreshold now d = e := by simpa [act] using h
    exact cache_updateThreshold hd now

/-- The sibling detector reads the frame at hand under the same condition. -/
theorem helper_reads_own_iff_fits (start : ℚ) (img : Img) (as : List (Act Img))
    (hp : ∀ a ∈ as, PlanarAct a) :
    Along act (ReadsOwn reads) (initial start img) as ↔ Along act Fits (initial start img) as :=
  along_congr (I := Cache) (E := fun _ a => PlanarAct a)
    (fun _ _ _ hd ha h => cache_act hd ha h) (fun _ _ hd ha => reads_own_step reads_eq hd ha)
    (cache_initial (by decide) start img) (along_of_mem _ hp)

end Solta.DetectionHelper
