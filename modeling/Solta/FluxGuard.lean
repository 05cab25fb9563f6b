import Solta.Ratchet

/-!
The rate of the helper's detections.

The helper counts every event, and drops the event when the lifetime average of events is
above one and a half times the target. The detections it hands over are fewer than the events
it has counted, and the average was low enough at the last of them; after that only time
passes. So their own average stays below the bound for ever.
-/

namespace Solta.FluxGuard

open Lib.Run Solta.Imaging Solta.Ratchet

variable {Img : Type}

/-- The helper, and the detections it has handed to `addDetection`. -/
structure Recorder (Img : Type) where
  detector : Detector Img
  handed : List (Img × Float32)

def init (start : ℚ) (lastImage : Img) : Recorder Img :=
  ⟨DetectionHelper.initial start lastImage, []⟩

def step (r : Recorder Img) : Act Img → Option (Recorder Img)
  | .frame now b =>
    let c := DetectionHelper.capturedOutput r.detector now b
    some ⟨c.detector, r.handed ++ c.handed.toList⟩
  | .tick now => some ⟨updateThreshold now r.detector, r.handed⟩

/-- The highest average the guard lets through. -/
def maxFlux : ℚ := targetFlux * (3 / 2)

/-- The frame is an event, suppressed or not. -/
def isEventFrame (r : Recorder Img) : Act Img → Bool
  | .frame _ b => isEvent (ready r.detector b) (scan (ready r.detector b) b)
  | .tick _ => false

/-- How many frames of a run are events. -/
def eventFrames (r : Recorder Img) : List (Act Img) → ℕ
  | [] => 0
  | a :: as => (isEventFrame r a).toNat + ((step r a).map fun s => eventFrames s as).getD 0

/-! ### One step -/

/-- At the time `now` the counters are in order: no more is handed over than was counted, and
no more than the guard allows. -/
structure Within (start now : ℚ) (r : Recorder Img) : Prop where
  timeStarted : r.detector.timeStarted = start
  le_numEvents : r.handed.length ≤ r.detector.numEvents
  le_flux : (r.handed.length : ℚ) ≤ maxFlux * (now - start)

lemma updateThreshold_same (now : ℚ) (d : Detector Img) :
    (updateThreshold now d).timeStarted = d.timeStarted ∧
      (updateThreshold now d).numEvents = d.numEvents := by
  obtain ⟨table, h⟩ := updateThreshold_eq now d
  rw [h]
  exact ⟨rfl, rfl⟩

/-- Whether it is suppressed or not, an event is counted. -/
lemma capturedOutput_same (d : Detector Img) (now : ℚ) (b : PixelBuffer Img) :
    (DetectionHelper.capturedOutput d now b).detector.timeStarted = d.timeStarted ∧
      (DetectionHelper.capturedOutput d now b).detector.numEvents =
        d.numEvents + (isEvent (ready d b) (scan (ready d b) b)).toNat := by
  rw [DetectionHelper.capturedOutput_eq]
  split
  · rename_i h
    rw [h]
    split <;> simp
  · rename_i h
    rw [Bool.eq_false_iff.mpr h]
    simp

/-- An average that the guard lets through is finite, and so the time it is taken over is not
zero. -/
lemma le_of_not_gt {n : ℕ} {t : ℚ} (ht : 0 ≤ t) (h : (Flux.div (n + 1) t).gt maxFlux = false) :
    (n + 1 : ℚ) ≤ maxFlux * t := by
  unfold Flux.div at h
  split at h
  · simp [Flux.gt] at h
  · rename_i hne
    have hpos : 0 < t := lt_of_le_of_ne ht (Ne.symm hne)
    have hle : ((n + 1 : ℕ) : ℚ) / t ≤ maxFlux := by simpa [Flux.gt] using h
    rw [div_le_iff₀ hpos] at hle
    exact_mod_cast hle

/-- A frame that hands something over was let through by the guard. -/
lemma handed_capturedOutput (d : Detector Img) (now : ℚ) (b : PixelBuffer Img) :
    (DetectionHelper.capturedOutput d now b).handed = none ∨
      isEvent (ready d b) (scan (ready d b) b) = true ∧
        (Flux.div (d.numEvents + 1) (now - d.timeStarted)).gt maxFlux = false := by
  rw [DetectionHelper.capturedOutput_eq]
  split
  · rename_i hevent
    split
    · exact Or.inl rfl
    · rename_i hgt
      exact Or.inr ⟨hevent, by simpa [counted, maxFlux] using hgt⟩
  · exact Or.inl rfl

lemma Within.mono {start now now' : ℚ} {r : Recorder Img} (h : Within start now r)
    (hle : now ≤ now') : Within start now' r := by
  refine ⟨h.timeStarted, h.le_numEvents, h.le_flux.trans ?_⟩
  have hflux : 0 ≤ maxFlux := by decide +kernel
  exact mul_le_mul_of_nonneg_left (by linarith) hflux

/-- **One step** keeps the counters in order. -/
lemma Within.step {start : ℚ} {r s : Recorder Img} {a : Act Img} (h : Within start a.now r)
    (hstart : start ≤ a.now) (hs : step r a = some s) : Within start a.now s := by
  cases a with
  | tick now =>
    obtain rfl := Option.some.inj hs
    obtain ⟨htime, hcount⟩ := updateThreshold_same now r.detector
    exact ⟨htime.trans h.timeStarted, by simpa [hcount] using h.le_numEvents, h.le_flux⟩
  | frame now b =>
    obtain rfl := Option.some.inj hs
    obtain ⟨htime, hcount⟩ := capturedOutput_same r.detector now b
    refine ⟨htime.trans h.timeStarted, ?_, ?_⟩
    all_goals rcases handed_capturedOutput r.detector now b with hnone | ⟨hevent, hgt⟩
    · have hle := h.le_numEvents
      simp only [hcount, hnone, Option.toList_none, List.append_nil]
      omega
    · have hle := h.le_numEvents
      have hlen : (DetectionHelper.capturedOutput r.detector now b).handed.toList.length ≤ 1 :=
        Option.length_toList_le
      simp only [hcount, hevent, List.length_append, Bool.toNat_true]
      omega
    · simpa [hnone] using h.le_flux
    · -- one more is handed over than before, which is still no more than was counted
      have hle := h.le_numEvents
      have hlen : (DetectionHelper.capturedOutput r.detector now b).handed.toList.length ≤ 1 :=
        Option.length_toList_le
      have hcounted : (r.detector.numEvents + 1 : ℚ) ≤ maxFlux * (now - start) := by
        rw [h.timeStarted] at hgt
        exact le_of_not_gt (sub_nonneg.mpr hstart) hgt
      refine le_trans ?_ hcounted
      rw [List.length_append]
      exact_mod_cast (show _ ≤ _ by omega)

/-! ### Runs -/

lemma clocked_of_append {start : ℚ} {as : List (Act Img)} {a : Act Img}
    (h : Clocked start (as ++ [a])) :
    Clocked start as ∧ (∀ x ∈ as, x.now ≤ a.now) ∧ start ≤ a.now := by
  unfold Clocked at h ⊢
  rw [List.map_append, ← List.cons_append, List.pairwise_append] at h
  obtain ⟨has, -, hlast⟩ := h
  refine ⟨has, fun x hx => ?_, ?_⟩
  · exact hlast x.now (List.mem_cons_of_mem _ (List.mem_map_of_mem hx)) a.now (by simp)
  · exact hlast start List.mem_cons_self a.now (by simp)

/-- The counters are in order at every moment after the last reading of the clock. -/
theorem within_of_run {start : ℚ} {lastImage : Img} {as : List (Act Img)} {r : Recorder Img}
    (hclock : Clocked start as) (hrun : run step (init start lastImage) as = some r) {now : ℚ}
    (hstart : start ≤ now) (hnow : ∀ a ∈ as, a.now ≤ now) : Within start now r := by
  induction as using List.reverseRecOn generalizing r now with
  | nil =>
    obtain rfl := Option.some.inj hrun
    have hflux : 0 ≤ maxFlux := by decide +kernel
    exact ⟨rfl, Nat.zero_le _, by simpa [init] using mul_nonneg hflux (sub_nonneg.mpr hstart)⟩
  | append_singleton as a ih =>
    obtain ⟨has, hlast, hstart'⟩ := clocked_of_append hclock
    rw [run_snoc] at hrun
    obtain ⟨s, hs, hstep⟩ := Option.bind_eq_some_iff.mp hrun
    have hwithin : Within start a.now s := ih has hs hstart' hlast
    exact (hwithin.step hstart' hstep).mono (hnow a (by simp))

/-- Every event of a run is counted. -/
lemma numEvents_of_run {r s : Recorder Img} {as : List (Act Img)}
    (h : run step r as = some s) :
    s.detector.numEvents = r.detector.numEvents + eventFrames r as := by
  induction as generalizing r with
  | nil =>
    obtain rfl := Option.some.inj h
    rfl
  | cons a as ih =>
    obtain ⟨t, ht, hr⟩ := Option.bind_eq_some_iff.mp h
    have hone : t.detector.numEvents = r.detector.numEvents + (isEventFrame r a).toNat := by
      cases a with
      | frame now b =>
        obtain rfl := Option.some.inj ht
        exact (capturedOutput_same r.detector now b).2
      | tick now =>
        obtain rfl := Option.some.inj ht
        exact (updateThreshold_same now r.detector).2
    rw [ih hr, hone, Nat.add_assoc]
    simp [eventFrames, ht]

/-- **The flux guard bounds the rate.** At every moment of a run the helper has handed over
at most 15 detections for every hundred seconds since its start, and it has counted all
events, the suppressed ones too. -/
theorem handed_le_flux (start : ℚ) (lastImage : Img) (as : List (Act Img)) (r : Recorder Img)
    (hclock : Clocked start as) (hrun : run step (init start lastImage) as = some r) (now : ℚ)
    (hstart : start ≤ now) (hnow : ∀ a ∈ as, a.now ≤ now) :
    (r.handed.length : ℚ) ≤ 15 / 100 * (now - start) ∧
      r.detector.numEvents = eventFrames (init start lastImage) as := by
  have hflux : maxFlux = 15 / 100 := by decide +kernel
  have hwithin := within_of_run hclock hrun hstart hnow
  refine ⟨?_, ?_⟩
  · rw [← hflux]
    exact hwithin.le_flux
  · rw [numEvents_of_run hrun]
    exact Nat.zero_add _

/-- Two events at the start, and one a minute later. -/
def threeEvents : List (Act Unit) :=
  [.frame 0 (plain () 8 8 8 255), .frame 0 (plain () 8 8 8 255), .frame 60 (plain () 8 8 8 255)]

/-- The two events at the start are suppressed, the one a minute later is handed over. -/
theorem handed_le_flux_minute :
    ∃ r : Recorder Unit, run step (init 0 ()) threeEvents = some r ∧ r.handed.length = 1 ∧
      (r.handed.length : ℚ) ≤ 15 / 100 * (60 - 0) ∧ r.detector.numEvents = 3 := by
  have hrun : (run step (init 0 ()) threeEvents).any fun r => r.handed.length = 1 := by
    decide +kernel
  obtain ⟨r, hr, hone⟩ := (Option.any_eq_true _ _).mp hrun
  obtain ⟨hle, hcount⟩ := handed_le_flux 0 () threeEvents r (by unfold Clocked; decide +kernel) hr
    60 (by decide +kernel) (by decide +kernel)
  exact ⟨r, hr, of_decide_eq_true hone, hle, hcount.trans (by decide +kernel)⟩

end Solta.FluxGuard
