import Mathlib.Tactic.Linarith
import Mathlib.Data.List.Chain
import Solta.Imaging
import Solta.Lib.Run

/-!
The threshold of a detector over whole runs of frames and timer ticks.

A tick adds 5 to the threshold when the lifetime average of events is above the target, and
nothing ever lowers it. So the threshold after a run is its start value plus 5 for every
tick that raised it, and it passes the byte range with the 36th such tick.
-/

namespace Solta.Ratchet

open Lib.Run Solta.Imaging Solta.DetectionVC

variable {Img : Type}

def threshold (d : Detector Img) : ℚ := getIntensityThreshold d detectionMode

/-- A saturated byte still counts as bright. -/
def SeesSaturated (d : Detector Img) : Prop := threshold d * (3 / 4) < 255

instance (d : Detector Img) : Decidable (SeesSaturated d) :=
  inferInstanceAs (Decidable (_ < _))

/-- The tick finds the lifetime average of events above the target. -/
def raised (d : Detector Img) : Act Img → Bool
  | .frame _ _ => false
  | .tick now => (Flux.div d.numEvents (now - d.timeStarted)).gt targetFlux

/-- How many ticks of a run find the average above the target. -/
def raises (d : Detector Img) : List (Act Img) → ℕ
  | [] => 0
  | a :: as => (raised d a).toNat + ((act d a).map fun e => raises e as).getD 0

/-! ### One step -/

/-- The table has its two rows, the threshold in use being `t`. -/
def Table (d : Detector Img) (t : ℚ) : Prop :=
  d.intensityThreshholds = [(.BGRA, 450), (.YUV420v, t)]

lemma table_initial (k : ℕ) (start : ℚ) (img : Img) : Table (initial k start img) 160 := rfl

lemma Table.threshold {d : Detector Img} {t : ℚ} (h : Table d t) : threshold d = t := by
  unfold Ratchet.threshold getIntensityThreshold
  rw [h]
  rfl

lemma captureOutput_table {d : Detector Img} {t : ℚ} (h : Table d t) (now : ℚ)
    (b : PixelBuffer Img) : Table (captureOutput d now b).detector t := by
  unfold Table
  rw [← h, captureOutput_eq]
  split <;> simp

lemma increment_table {d : Detector Img} {t : ℚ} (h : Table d t) (v : ℚ) :
    Table (incrementIntensityThreshold d detectionMode v) (t + v) := by
  unfold Table incrementIntensityThreshold setIntensityThreshold getIntensityThreshold
  rw [h]
  rfl

/-- Frames keep the threshold; a tick adds 5 to it when the average is too high. -/
lemma act_table {d e : Detector Img} {t : ℚ} {a : Act Img} (ht : Table d t)
    (h : act d a = some e) : Table e (t + 5 * (raised d a).toNat) := by
  cases a with
  | frame now b =>
    obtain rfl := Option.some.inj h
    simpa [raised] using captureOutput_table ht now b
  | tick now =>
    obtain rfl := Option.some.inj h
    unfold updateThreshold raised
    dsimp only
    split
    · next hgt =>
      rw [hgt]
      simpa using increment_table (d := { d with
        timeElapsed := now - d.timeStarted
        flux := Flux.div d.numEvents (now - d.timeStarted) }) ht 5
    · next hgt =>
      have h0 : t + 5 * ((false.toNat : ℕ) : ℚ) = t := by simp
      rw [Bool.eq_false_iff.mpr hgt, h0]
      exact ht

lemma raises_cons {d e : Detector Img} {a : Act Img} (as : List (Act Img))
    (h : act d a = some e) : raises d (a :: as) = (raised d a).toNat + raises e as := by
  simp [raises, h]

/-! ### Runs -/

/-- The threshold after a run: 5 more for every tick that raised it. -/
theorem run_table {d e : Detector Img} {t : ℚ} {as : List (Act Img)} (ht : Table d t)
    (h : run act d as = some e) : Table e (t + 5 * raises d as) := by
  induction as generalizing d t with
  | nil =>
    obtain rfl : d = e := by simpa using h
    simpa [raises] using ht
  | cons a as ih =>
    obtain ⟨c, hc, hr⟩ := Option.bind_eq_some_iff.mp h
    have he := ih (act_table ht hc) hr
    rw [raises_cons as hc]
    push_cast
    rw [mul_add, ← add_assoc]
    exact he

lemma sees_iff {d : Detector Img} {t : ℚ} (ht : Table d t) : SeesSaturated d ↔ t < 340 := by
  unfold SeesSaturated
  rw [ht.threshold]
  exact ⟨fun h => by linarith, fun h => by linarith⟩

/-- A run keeps seeing saturated bytes as long as the raises stay below the ceiling. -/
lemma always_sees_iff {d : Detector Img} {t : ℚ} (ht : Table d t) (as : List (Act Img)) :
    Always act SeesSaturated d as ↔ t + 5 * raises d as < 340 := by
  induction as generalizing d t with
  | nil => simp [Always, raises, sees_iff ht]
  | cons a as ih =>
    obtain ⟨e, he⟩ := act_isSome d a
    have hte := act_table ht he
    have hsum : t + 5 * (raised d a).toNat + 5 * raises e as = t + 5 * raises d (a :: as) := by
      rw [raises_cons as he]
      push_cast
      ring
    rw [← hsum, ← ih hte]
    refine ⟨fun h => ?_, fun h => ⟨?_, e, he, h⟩⟩
    · obtain ⟨-, c, hc, hr⟩ := h
      obtain rfl : e = c := by simpa [he] using hc
      exact hr
    · have hhead := (sees_iff hte).mp h.head
      have hpos : (0 : ℚ) ≤ (raised d a).toNat := Nat.cast_nonneg _
      rw [sees_iff ht]
      linarith

/-! ### Blindness -/

lemma visit_dark {d : Detector Img} {t : ℚ} (ht : Table d t) (hdark : 340 ≤ t)
    (b : PixelBuffer Img) (s : Scan) (x y : ℕ) :
    (visit d b s x y).numBrightPixels = s.numBrightPixels := by
  have hbyte : (((b.plane (x + y * d.bytesPerRowofPlane)).toNat : ℕ) : ℚ) ≤ 255 := by
    have := (b.plane (x + y * d.bytesPerRowofPlane)).toNat_lt
    exact_mod_cast Nat.le_of_lt_succ this
  have hcut : ¬ (((b.plane (x + y * d.bytesPerRowofPlane)).toNat : ℕ) : ℚ) >
      getIntensityThreshold d detectionMode * (3 / 4) := by
    have h340 : getIntensityThreshold d detectionMode = t := ht.threshold
    rw [h340]
    linarith
  unfold visit
  dsimp only
  rw [if_neg hcut]

/-- Past the ceiling no pixel is bright, whatever the frame. -/
lemma scan_dark {d : Detector Img} {t : ℚ} (ht : Table d t) (hdark : 340 ≤ t)
    (b : PixelBuffer Img) : (scan d b).numBrightPixels = 0 := by
  have hfold : ∀ (g : List (ℕ × ℕ)) (s : Scan),
      (g.foldl (fun s p => visit d b s p.1 p.2) s).numBrightPixels = s.numBrightPixels := by
    intro g
    induction g with
    | nil => exact fun s => rfl
    | cons p g ih =>
      intro s
      rw [List.foldl_cons, ih, visit_dark ht hdark]
  rw [scan_eq, hfold]
  rfl

lemma act_minRaySize {d e : Detector Img} {a : Act Img} (h : act d a = some e) :
    e.minRaySize = d.minRaySize := by
  cases a with
  | frame now b =>
    obtain rfl := Option.some.inj h
    rw [captureOutput_eq]
    split <;> simp
  | tick now =>
    obtain rfl := Option.some.inj h
    obtain ⟨table, heq⟩ := updateThreshold_eq now d
    rw [heq]

/-- **Blindness is for good.** Once the threshold has reached 340 no frame of any later
part of the run is an event. -/
theorem blind_for_good {d e : Detector Img} {t : ℚ} {as : List (Act Img)} (ht : Table d t)
    (hdark : 340 ≤ t) (hmin : d.minRaySize = 1) (h : run act d as = some e) (now : ℚ)
    (b : PixelBuffer Img) : (captureOutput e now b).handed = none := by
  have hte := run_table ht h
  have hraise : (0 : ℚ) ≤ raises d as := Nat.cast_nonneg _
  have hmin' : e.minRaySize = 1 :=
    run_inv (fun c a c' hc hs => (act_minRaySize hs).trans hc) hmin h
  have hready : Table (ready e b) (t + 5 * raises d as) := by
    unfold Table
    rw [ready_intensityThreshholds]
    exact hte
  have hzero := scan_dark hready (by linarith) b
  have hno : isEvent (ready e b) (scan (ready e b) b) = false := by
    unfold isEvent
    rw [hzero, ready_minRaySize, hmin']
    rfl
  rw [captureOutput_eq, hno]
  rfl

/-! ### Does the detector keep seeing? -/

/-- The clock never goes back, counting from the start of the detector. -/
def Clocked (start : ℚ) (as : List (Act Img)) : Prop :=
  (start :: as.map Act.now).Pairwise (· ≤ ·)

/-- The clock readings of the timer's ticks. -/
def ticks (as : List (Act Img)) : List ℚ :=
  as.filterMap fun a => match a with
    | .tick now => some now
    | .frame _ _ => none

/-- The timer fires every five seconds. -/
def EveryFive (as : List (Act Img)) : Prop := (ticks as).IsChain fun s t => t = s + 5

/-- Nineteen frames of four saturated pixels at the start, then three minutes of ticks. -/
def burst : List (Act Unit) :=
  List.replicate 19 (.frame 0 (plain () 2 2 2 255)) ++
    (List.range 36).map fun i => .tick (5 * (i + 1))

/-- **The ratchet passes the byte range.** The detector does go blind: after nineteen
events at once, three minutes of ticks raise the threshold to 340. -/
theorem not_always_sees :
    ¬ ∀ (start : ℚ) (img : Unit) (as : List (Act Unit)), Clocked start as → EveryFive as →
      Always act SeesSaturated (DetectionVC.initial start img) as := by
  intro h
  have hb := h 0 () burst (by unfold Clocked; decide +kernel) (by unfold EveryFive; decide +kernel)
  rw [DetectionVC.initial, always_sees_iff (table_initial _ _ _)] at hb
  have hr : raises (initial DetectionVC.pixelsToSkip 0 ()) burst = 36 := by decide +kernel
  rw [hr] at hb
  norm_num at hb

/-- **When the detector goes blind.** In every state of a run a saturated byte still counts
as bright, exactly when at most 35 of the run's ticks find the lifetime average of events
above the target. -/
theorem always_sees_iff_raises_le (start : ℚ) (img : Img) (as : List (Act Img)) :
    Always act SeesSaturated (DetectionVC.initial start img) as ↔
      raises (DetectionVC.initial start img) as ≤ 35 := by
  unfold DetectionVC.initial
  rw [always_sees_iff (table_initial _ _ _)]
  refine ⟨fun h => ?_, fun h => ?_⟩
  · have : (raises (initial DetectionVC.pixelsToSkip start img) as : ℚ) < 36 := by linarith
    have : raises (initial DetectionVC.pixelsToSkip start img) as < 36 := by exact_mod_cast this
    omega
  · have : (raises (initial DetectionVC.pixelsToSkip start img) as : ℚ) ≤ 35 := by exact_mod_cast h
    linarith

end Solta.Ratchet
