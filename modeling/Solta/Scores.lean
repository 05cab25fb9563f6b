import Solta.Brightness
import Solta.FirebaseHelper
import Solta.MainQueue
import Solta.Ratchet

/-!
The scores of the detections.

A frame is judged by the threshold in the table, and scored with a copy of it that was made
when the geometry was last read. Ticks raise the threshold and leave the copy alone, so a
score belongs to the frame's own threshold only while the copy is up to date, and only as
long as a `Float32` holds it. But the copy is never above the threshold, and no frame is an
event under a threshold past the brightest byte, so every score fits 32 bits, however far the
ticks have raised the threshold.
-/

namespace Solta.Scores

open Lib.Run Lib.Stride Lib.Rounding Solta.Imaging Solta.MainQueue Solta.Brightness Solta.Ratchet

variable {Img : Type}

/-! ### The score of an event -/

section

variable {n : ℕ} {c : ℚ}

lemma scoreOf_nonneg (n : ℕ) (hc : 0 ≤ c) : 0 ≤ (scoreOf n c).value :=
  round_nonneg _ (round_nonneg _ (mul_nonneg (round_nonneg _ n.cast_nonneg) hc))

/-- Three times rounded up, a score is still within a part in `2 ^ 23`. -/
lemma scoreOf_le (n : ℕ) (hc : 0 ≤ c) : (scoreOf n c).value ≤ n * c * (1 + 1 / 2 ^ 23) := by
  have hn : (0 : ℚ) ≤ CGFloat.ofInt n := round_nonneg _ n.cast_nonneg
  have hmul : 0 ≤ CGFloat.mul (CGFloat.ofInt n) c := round_nonneg _ (mul_nonneg hn hc)
  have hexact : (0 : ℚ) ≤ n * c := mul_nonneg n.cast_nonneg hc
  have h1 : CGFloat.ofInt n ≤ n * (1 + 1 / 2 ^ 53) := round_le 53 n.cast_nonneg
  have h2 : CGFloat.mul (CGFloat.ofInt n) c ≤ CGFloat.ofInt n * c * (1 + 1 / 2 ^ 53) :=
    round_le 53 (mul_nonneg hn hc)
  calc (scoreOf n c).value ≤ CGFloat.mul (CGFloat.ofInt n) c * (1 + 1 / 2 ^ 24) :=
        round_le 24 hmul
    _ ≤ CGFloat.ofInt n * c * (1 + 1 / 2 ^ 53) * (1 + 1 / 2 ^ 24) := by gcongr
    _ ≤ n * (1 + 1 / 2 ^ 53) * c * (1 + 1 / 2 ^ 53) * (1 + 1 / 2 ^ 24) := by gcongr
    _ = n * c * ((1 + 1 / 2 ^ 53) * (1 + 1 / 2 ^ 53) * (1 + 1 / 2 ^ 24)) := by ring
    _ ≤ n * c * (1 + 1 / 2 ^ 23) := by
      refine mul_le_mul_of_nonneg_left ?_ hexact
      norm_num

/-- **The score of a whole threshold** is the product exactly when a `Float32` holds it. -/
theorem scoreOf_eq_iff {t : ℕ} (ht : 0 < t) :
    (scoreOf n t).value = n * t ↔ Representable 24 (n * t : ℚ) := by
  refine ⟨fun h => h ▸ (scoreOf n t).representable, fun h => ?_⟩
  have hn : Representable 24 (n : ℚ) := Representable.of_mul ht (by exact_mod_cast h)
  have hofInt : CGFloat.ofInt n = n := round_of_representable (hn.mono (by norm_num))
  have hmul : CGFloat.mul n t = n * t := round_of_representable (h.mono (by norm_num))
  have hscore : (scoreOf n t).value = round 24 (CGFloat.mul (CGFloat.ofInt n) t) := rfl
  rw [hscore, hofInt, hmul, round_of_representable h]

/-- A threshold that is lower by a raise gives a lower score. -/
lemma scoreOf_lt {t : ℚ} (hn : 0 < n) (hc : 0 ≤ c) (hct : c + 5 ≤ t) (ht : t < 340) :
    (scoreOf n c).value < n * t := by
  have hpos : (0 : ℚ) < n := by exact_mod_cast hn
  calc (scoreOf n c).value ≤ n * c * (1 + 1 / 2 ^ 23) := scoreOf_le n hc
    _ = n * (c * (1 + 1 / 2 ^ 23)) := by ring
    _ < n * t := by
      refine mul_lt_mul_of_pos_left ?_ hpos
      linarith

end

/-! ### The copy of the threshold -/

/-- The detector's constants are set, its threshold is the first one raised some times, and
its copy of the threshold is the threshold itself or lower by a raise. -/
structure Sane (d : Detector Img) : Prop where
  skip : 0 < d.pixelsToSkip
  minRaySize : d.minRaySize = 1
  nonneg : 0 ≤ d.intensityThreshhold
  copied : ∃ j : ℕ, Table d (160 + 5 * j : ℕ) ∧
    (d.intensityThreshhold = (160 + 5 * j : ℕ) ∨
      d.intensityThreshhold + 5 ≤ (160 + 5 * j : ℕ))

namespace Sane

variable {d : Detector Img}

lemma threshold_eq (h : Sane d) : ∃ j : ℕ, threshold d = (160 + 5 * j : ℕ) := by
  obtain ⟨j, ht, -⟩ := h.copied
  exact ⟨j, ht.threshold⟩

lemma copy_eq_or (h : Sane d) : d.intensityThreshhold = threshold d ∨
    d.intensityThreshhold + 5 ≤ threshold d := by
  obtain ⟨j, ht, hcopy⟩ := h.copied
  rwa [ht.threshold]

/-- Below the brightest byte's threshold there is room for one more raise. -/
lemma copy_le (h : Sane d) (hlt : threshold d < 340) : d.intensityThreshhold ≤ 335 := by
  obtain ⟨j, hj⟩ := h.threshold_eq
  have hle : threshold d ≤ 335 := by
    rw [hj] at hlt ⊢
    have hnat : 160 + 5 * j < 340 := by exact_mod_cast hlt
    exact_mod_cast (by omega : 160 + 5 * j ≤ 335)
  rcases h.copy_eq_or with heq | hbelow <;> linarith

end Sane

lemma sane_initial {k : ℕ} (hk : 0 < k) (start : ℚ) (img : Img) : Sane (initial k start img) :=
  ⟨hk, rfl, le_refl 0, 0, table_initial k start img, .inr (by norm_num [initial])⟩

/-- The copy is made again with the geometry. -/
lemma ready_intensityThreshhold (d : Detector Img) (b : PixelBuffer Img) :
    (ready d b).intensityThreshhold =
      if d.planeWidth ≠ b.widthOfPlane then threshold d else d.intensityThreshhold := by
  unfold ready refresh
  dsimp only
  split <;> rfl

lemma Sane.ready {d : Detector Img} (h : Sane d) (b : PixelBuffer Img) : Sane (ready d b) := by
  obtain ⟨j, ht, hcopy⟩ := h.copied
  have htable : Table (Imaging.ready d b) (160 + 5 * j : ℕ) := by
    unfold Table
    rw [ready_intensityThreshholds]
    exact ht
  refine ⟨?_, ?_, ?_, j, htable, ?_⟩
  · rw [ready_pixelsToSkip]
    exact h.skip
  · rw [ready_minRaySize]
    exact h.minRaySize
  all_goals rw [ready_intensityThreshhold, ht.threshold]; split
  · exact Nat.cast_nonneg _
  · exact h.nonneg
  · exact .inl rfl
  · exact hcopy

/-- What a frame leaves of the detector that scanned it. -/
structure SameGeometry (d e : Detector Img) : Prop where
  width : e.width = d.width
  height : e.height = d.height
  pixelsToSkip : e.pixelsToSkip = d.pixelsToSkip
  minRaySize : e.minRaySize = d.minRaySize
  intensityThreshhold : e.intensityThreshhold = d.intensityThreshhold

lemma captureOutput_same (d : Detector Img) (now : ℚ) (b : PixelBuffer Img) :
    SameGeometry (ready d b) (DetectionVC.captureOutput d now b).detector ∧
      (DetectionVC.captureOutput d now b).detector.intensityThreshholds =
        d.intensityThreshholds := by
  rw [DetectionVC.captureOutput_eq]
  split
  · exact ⟨⟨rfl, rfl, rfl, rfl, rfl⟩, ready_intensityThreshholds d b⟩
  · exact ⟨⟨rfl, rfl, rfl, rfl, rfl⟩, ready_intensityThreshholds d b⟩

lemma updateThreshold_same (now : ℚ) (d : Detector Img) :
    SameGeometry d (updateThreshold now d) := by
  obtain ⟨table, h⟩ := updateThreshold_eq now d
  rw [h]
  exact ⟨rfl, rfl, rfl, rfl, rfl⟩

lemma Sane.captureOutput {d : Detector Img} (h : Sane d) (now : ℚ) (b : PixelBuffer Img) :
    Sane (DetectionVC.captureOutput d now b).detector := by
  obtain ⟨hsame, htable⟩ := captureOutput_same d now b
  have hready := h.ready b
  obtain ⟨j, ht, hcopy⟩ := hready.copied
  refine ⟨?_, ?_, ?_, j, ?_, ?_⟩
  · rw [hsame.pixelsToSkip]
    exact hready.skip
  · rw [hsame.minRaySize]
    exact hready.minRaySize
  · rw [hsame.intensityThreshhold]
    exact hready.nonneg
  · unfold Table at ht ⊢
    rw [htable, ← ht, ready_intensityThreshholds]
  · rw [hsame.intensityThreshhold]
    exact hcopy

/-- A tick can only raise the threshold. -/
lemma Sane.updateThreshold {d : Detector Img} (h : Sane d) (now : ℚ) :
    Sane (updateThreshold now d) := by
  obtain ⟨j, ht, hcopy⟩ := h.copied
  have hsame := updateThreshold_same now d
  have htable := act_table ht (a := .tick now) rfl
  have hsum : ((160 + 5 * j : ℕ) : ℚ) + 5 * (raised d (.tick now)).toNat =
      (160 + 5 * (j + (raised d (.tick now)).toNat) : ℕ) := by
    push_cast
    ring
  rw [hsum] at htable
  refine ⟨?_, ?_, ?_, _, htable, ?_⟩
  · rw [hsame.pixelsToSkip]
    exact h.skip
  · rw [hsame.minRaySize]
    exact h.minRaySize
  · rw [hsame.intensityThreshhold]
    exact h.nonneg
  · rw [hsame.intensityThreshhold, ← hsum]
    cases raised d (.tick now)
    · simpa using hcopy
    · right
      rw [Bool.toNat_true, Nat.cast_one]
      rcases hcopy with heq | hbelow <;> linarith

/-! ### Events -/

/-- What makes a frame an event. -/
lemma handed_captureOutput {d : Detector Img} {now : ℚ} {b : PixelBuffer Img} {n : ℕ}
    (h : (DetectionVC.captureOutput d now b).handed = some n) :
    isEvent (ready d b) (scan (ready d b) b) = true ∧
      n = (scan (ready d b) b).numBrightPixels := by
  rw [DetectionVC.captureOutput_eq] at h
  split at h
  · rename_i hevent
    exact ⟨hevent, (Option.some.inj h).symm⟩
  · simp at h

/-- An event has at least one bright pixel and at most a quarter of all, and the brightest
byte is above its cutoff. -/
lemma of_isEvent {d : Detector Img} (hd : Sane d) {b : PixelBuffer Img}
    (h : isEvent d (scan d b) = true) :
    1 ≤ (scan d b).numBrightPixels ∧ (scan d b).numBrightPixels ≤ d.width * d.height / 4 ∧
      threshold d < 340 := by
  unfold isEvent at h
  rw [Bool.and_eq_true, decide_eq_true_iff, decide_eq_true_iff, hd.minRaySize] at h
  refine ⟨h.1, h.2, ?_⟩
  have hcard : 0 < (brightPoints d b).card := by
    rw [← scan_numBrightPixels hd.skip]
    exact h.1
  obtain ⟨p, hp⟩ := Finset.card_pos.mp hcard
  have hbright : cutoff d < byte d b p := (Finset.mem_filter.mp hp).2
  have hbyte : (byte d b p : ℚ) ≤ 255 := by exact_mod_cast byte_le p
  have hcut : cutoff d = threshold d * (3 / 4) := rfl
  linarith

/-- The detections a step has recorded. -/
def recordedBy (s t : St Img) : List (Recorded Img) := t.recorded.drop s.recorded.length

lemma recordedBy_append {s t : St Img} {rs : List (Recorded Img)}
    (h : t.recorded = s.recorded ++ rs) : recordedBy s t = rs := by
  unfold recordedBy
  rw [h, List.drop_left]

/-! ### Scores fit -/

/-- The closures that have been posted and have not finished. -/
def unfinished (s : St Img) : List (Event Img) :=
  s.leaving.toList ++ s.mainQueue ++ s.shown.toList

/-- The frames are no larger than `2 ^ 24` pixels. -/
def Small : MainQueue.Act Img → Prop
  | .frame _ b => b.width * b.height ≤ 2 ^ 24
  | _ => True

/-- A frame is handled only when no closure is left. -/
def Waits (s : St Img) : MainQueue.Act Img → Prop
  | .frame _ _ => Drained s
  | _ => True

instance [DecidableEq Img] (s : St Img) : ∀ a, Decidable (Waits s a)
  | .frame _ _ => inferInstanceAs (Decidable (_ = _ ∧ _ = _ ∧ _ = _))
  | .post | .start | .finish | .tick _ => isTrue trivial

/-- The bounds that the score of a closure meets when it finishes. -/
structure Bounded (s : St Img) : Prop where
  sane : Sane s.detector
  area : s.detector.width * s.detector.height ≤ 2 ^ 24
  pending : ∀ e ∈ unfinished s,
    e.numBrightPixels ≤ s.detector.width * s.detector.height / 4 ∧
      s.detector.intensityThreshhold ≤ 335

/-- The score of a detection recorded by a step is in range. -/
def ScoreFits (s : St Img) (a : MainQueue.Act Img) : Prop :=
  ∀ r ∈ recordedBy s (next s a),
    0 ≤ r.score.value ∧
      r.score.value ≤ (85 * (s.detector.width * s.detector.height) : ℕ) ∧
      85 * (s.detector.width * s.detector.height) < 2 ^ 31 ∧
      (FirebaseHelper.toInt32 r.score.value).isSome

lemma bounded_init (started : ℚ) (lastImage viewImage : Img) :
    Bounded (init started lastImage viewImage) :=
  ⟨sane_initial (by decide) started lastImage, by simp [init, DetectionVC.initial, initial],
    by simp [unfinished, init]⟩

lemma ready_area {d : Detector Img} (h : d.width * d.height ≤ 2 ^ 24) {b : PixelBuffer Img}
    (hb : b.width * b.height ≤ 2 ^ 24) :
    (ready d b).width * (ready d b).height ≤ 2 ^ 24 := by
  unfold ready refresh
  split
  · exact hb
  · exact h

lemma Bounded.frame {s : St Img} (h : Bounded s) (now : ℚ) {b : PixelBuffer Img}
    (hb : b.width * b.height ≤ 2 ^ 24) (hs : Drained s) : Bounded (frame s now b) := by
  obtain ⟨hleaving, hqueue, hshown⟩ := hs
  obtain ⟨hsame, -⟩ := captureOutput_same s.detector now b
  have hsane := h.sane.captureOutput now b
  have harea : (DetectionVC.captureOutput s.detector now b).detector.width *
      (DetectionVC.captureOutput s.detector now b).detector.height ≤ 2 ^ 24 := by
    rw [hsame.width, hsame.height]
    exact ready_area h.area hb
  unfold MainQueue.frame
  rw [hleaving, Option.isNone_none, if_pos rfl]
  dsimp only
  split
  · refine ⟨hsane, harea, ?_⟩
    simp [unfinished, hqueue, hshown]
  · rename_i n hn
    refine ⟨hsane, harea, fun e he => ?_⟩
    obtain rfl : e = ⟨b.image, n⟩ := by simpa [unfinished, hqueue, hshown] using he
    obtain ⟨hevent, rfl⟩ := handed_captureOutput hn
    have hready := h.sane.ready b
    obtain ⟨-, hle, hlt⟩ := of_isEvent hready hevent
    dsimp only
    rw [hsame.width, hsame.height, hsame.intensityThreshhold]
    exact ⟨hle, hready.copy_le hlt⟩

lemma Bounded.tick {s : St Img} (h : Bounded s) (now : ℚ) : Bounded (tick s now) := by
  unfold MainQueue.tick
  split
  · have hsame := updateThreshold_same now s.detector
    refine ⟨h.sane.updateThreshold now, ?_, fun e he => ?_⟩
    · dsimp only
      rw [hsame.width, hsame.height]
      exact h.area
    · dsimp only
      rw [hsame.width, hsame.height, hsame.intensityThreshhold]
      exact h.pending e he
  · exact h

/-- A closure that moves on is one that was posted before. -/
lemma unfinished_post (s : St Img) : unfinished (post s) ⊆ unfinished s := by
  intro e he
  simp only [unfinished, post, Option.toList_none, List.nil_append, List.mem_append] at he ⊢
  tauto

lemma unfinished_start (s : St Img) : unfinished (start s) ⊆ unfinished s := by
  unfold start
  split
  · rename_i e rest hshown hqueue
    intro x hx
    simp only [unfinished, hqueue, List.mem_append, List.mem_cons, Option.toList_some,
      List.not_mem_nil, or_false] at hx ⊢
    tauto
  · exact List.Subset.refl _

lemma unfinished_finish (s : St Img) : unfinished (finish s) ⊆ unfinished s := by
  unfold finish
  split
  · intro x hx
    simp only [unfinished, Option.toList_none, List.append_nil, List.mem_append] at hx ⊢
    tauto
  · exact List.Subset.refl _

lemma start_same (s : St Img) :
    (start s).detector = s.detector ∧ (start s).recorded = s.recorded := by
  unfold start
  split <;> exact ⟨rfl, rfl⟩

lemma finish_detector (s : St Img) : (finish s).detector = s.detector := by
  unfold finish
  split <;> rfl

lemma tick_recorded (s : St Img) (now : ℚ) : (tick s now).recorded = s.recorded := by
  unfold tick
  split <;> rfl

/-- The detector stands still and no closure is new. -/
lemma Bounded.of_subset {s t : St Img} (h : Bounded s) (hdet : t.detector = s.detector)
    (hsub : unfinished t ⊆ unfinished s) : Bounded t := by
  refine ⟨hdet ▸ h.sane, hdet ▸ h.area, fun e he => ?_⟩
  rw [hdet]
  exact h.pending e (hsub he)

/-- **One step** keeps the bounds. -/
lemma Bounded.next {s : St Img} (h : Bounded s) {a : MainQueue.Act Img} (ha : Small a)
    (hw : Waits s a) : Bounded (next s a) := by
  cases a with
  | frame now b => exact h.frame now ha hw
  | tick now => exact h.tick now
  | post => exact h.of_subset rfl (unfinished_post s)
  | start => exact h.of_subset (start_same s).1 (unfinished_start s)
  | finish => exact h.of_subset (finish_detector s) (unfinished_finish s)

/-- Only a closure that finishes records something. -/
lemma mem_recordedBy {s : St Img} {a : MainQueue.Act Img} {r : Recorded Img}
    (h : r ∈ recordedBy s (next s a)) :
    ∃ e ∈ unfinished s, r.score = scoreOf e.numBrightPixels s.detector.intensityThreshhold := by
  have hsame : ∀ {t : St Img}, t.recorded = s.recorded → r ∉ recordedBy s t := by
    intro t ht
    simp [recordedBy, ht]
  cases a with
  | finish =>
    change r ∈ recordedBy s (finish s) at h
    unfold finish at h
    split at h
    · rename_i e hshown
      rw [recordedBy_append rfl] at h
      obtain rfl := List.mem_singleton.mp h
      exact ⟨e, by simp [unfinished, hshown], rfl⟩
    · exact absurd h (hsame rfl)
  | frame now b => exact absurd h (hsame (frame_same s now b).2.2)
  | post => exact absurd h (hsame rfl)
  | start => exact absurd h (hsame (start_same s).2)
  | tick now => exact absurd h (hsame (tick_recorded s now))

lemma toInt32_isSome {x : ℚ} (h0 : 0 ≤ x) (h : x < 2 ^ 31) : (FirebaseHelper.toInt32 x).isSome := by
  have hfloor : 0 ≤ ⌊x⌋ := Int.floor_nonneg.mpr h0
  have hlt : ⌊x⌋ < 2147483648 := Int.floor_lt.mpr (lt_of_lt_of_le h (by norm_num))
  unfold FirebaseHelper.toInt32
  rw [if_pos h0]
  dsimp only
  rw [if_pos ⟨by omega, by omega⟩]
  rfl

lemma Bounded.scoreFits {s : St Img} (h : Bounded s) (a : MainQueue.Act Img) : ScoreFits s a := by
  intro r hr
  obtain ⟨e, he, hscore⟩ := mem_recordedBy hr
  obtain ⟨hn, hcopy⟩ := h.pending e he
  have harea := h.area
  have hnonneg := h.sane.nonneg
  have hpos : 0 ≤ r.score.value := hscore ▸ scoreOf_nonneg _ hnonneg
  -- a quarter of the pixels, each with at most 335, and the rounding
  have hle : r.score.value ≤ (85 * (s.detector.width * s.detector.height) : ℕ) := by
    have hquarter : e.numBrightPixels * 340 ≤ 85 * (s.detector.width * s.detector.height) := by
      omega
    have hround : s.detector.intensityThreshhold * (1 + 1 / 2 ^ 23) ≤ 340 := by linarith
    calc r.score.value
        ≤ e.numBrightPixels * s.detector.intensityThreshhold * (1 + 1 / 2 ^ 23) :=
          hscore ▸ scoreOf_le _ hnonneg
      _ = e.numBrightPixels * (s.detector.intensityThreshhold * (1 + 1 / 2 ^ 23)) := mul_assoc ..
      _ ≤ e.numBrightPixels * 340 := mul_le_mul_of_nonneg_left hround (Nat.cast_nonneg _)
      _ ≤ (85 * (s.detector.width * s.detector.height) : ℕ) := by exact_mod_cast hquarter
  have hbound : 85 * (s.detector.width * s.detector.height) < 2 ^ 31 := by omega
  refine ⟨hpos, hle, hbound, toInt32_isSome hpos (lt_of_le_of_lt hle ?_)⟩
  exact_mod_cast hbound

/-- **No score traps the conversion.** In every run whose frames wait for the closures of the
earlier ones, every detection has a score from 0 to 85 times the pixels of the cached
geometry, which fits 32 bits. -/
theorem scores_fit (started : ℚ) (lastImage viewImage : Img) (as : List (MainQueue.Act Img))
    (hsmall : ∀ a ∈ as, Small a) (hwaits : Along step Waits (init started lastImage viewImage) as) :
    Along step ScoreFits (init started lastImage viewImage) as := by
  refine (along_congr (I := Bounded) (C := fun _ _ => True) (E := fun s a => Small a ∧ Waits s a)
    ?_ (fun s a hs _ => iff_of_true trivial (hs.scoreFits a))
    (bounded_init started lastImage viewImage) ?_).mp (along_of_forall (fun _ _ => trivial) _ as)
  · intro s a t hs ha ht
    obtain rfl := Option.some.inj ht
    exact hs.next ha.1 ha.2
  · exact along_and (along_of_mem _ hsmall) hwaits

/-- A frame of four saturated pixels, its closure, a tick and the same frame again. -/
def twice : List (MainQueue.Act Unit) :=
  [.frame 1 (plain () 2 2 2 255), .post, .start, .finish, .tick 5,
    .frame 6 (plain () 2 2 2 255), .post, .start, .finish]

/-- The scores of two frames fit. -/
theorem scores_fit_twice :
    Along step ScoreFits (init 0 () ()) twice ∧
      (run step (init 0 () ()) twice).map (fun s => s.recorded.map fun r => r.score.value) =
        some [160, 160] := by
  refine ⟨scores_fit 0 () () twice ?_ ?_, ?_⟩
  · simp [twice, Small, plain]
  · decide +kernel
  · decide +kernel

/-! ### Whose threshold? -/

/-- What happens for one call when the closures run at once: the statements of the frame
callback and of its closure, or a tick. -/
def statements : Imaging.Act Img → List (MainQueue.Act Img)
  | .frame now b => [.frame now b, .post, .start, .finish]
  | .tick now => [.tick now]

/-- A call with the closure it posts. -/
def prompt (s : St Img) (a : Imaging.Act Img) : Option (St Img) :=
  run MainQueue.step s (statements a)

/-- What a frame records is scored with the threshold the frame is judged by. -/
def OwnScore (s : St Img) : Imaging.Act Img → Prop
  | .frame now b => ∀ t ∈ prompt s (.frame now b), ∀ r ∈ recordedBy s t,
      r.score.value = (brightPoints (ready s.detector b) b).card * threshold s.detector
  | .tick _ => True

/-- The frame has at least one bright pixel and at most a quarter of all. -/
def IsEvent (d : Detector Img) (b : PixelBuffer Img) : Prop :=
  1 ≤ (brightPoints d b).card ∧ (brightPoints d b).card ≤ d.width * d.height / 4

/-- At an event the copy of the threshold is up to date, or made again, and the product is a
`Float32`. -/
def Fresh (s : St Img) : Imaging.Act Img → Prop
  | .frame _ b => IsEvent (ready s.detector b) b →
      (s.detector.planeWidth ≠ b.widthOfPlane ∨
        s.detector.intensityThreshhold = threshold s.detector) ∧
      Representable 24 ((brightPoints (ready s.detector b) b).card * threshold s.detector)
  | .tick _ => True

instance (s : St Img) : ∀ a, Decidable (OwnScore s a)
  | .frame now b =>
    match h : prompt s (.frame now b) with
    | none => isTrue (by simp [OwnScore, h])
    | some t =>
      decidable_of_iff (∀ r ∈ recordedBy s t,
        r.score.value = (brightPoints (ready s.detector b) b).card * threshold s.detector)
        (by simp [OwnScore, h])
  | .tick _ => isTrue trivial

/-- Between the calls no closure is left, and the detector is sane. -/
structure Settled (s : St Img) : Prop where
  drained : Drained s
  sane : Sane s.detector

lemma isEvent_iff {d : Detector Img} (hd : Sane d) (b : PixelBuffer Img) :
    isEvent d (scan d b) = true ↔ IsEvent d b := by
  unfold isEvent IsEvent
  rw [Bool.and_eq_true, decide_eq_true_iff, decide_eq_true_iff, hd.minRaySize,
    scan_numBrightPixels hd.skip]

/-- The detection a prompt closure records for the bright pixels handed to it. -/
def detectionOf (c : Capture Img ℕ) (b : PixelBuffer Img) (n : ℕ) : Recorded Img :=
  ⟨⟨b.image, n⟩, c.detector.intensityThreshhold, c.detector.cgimage,
    scoreOf n c.detector.intensityThreshhold⟩

/-- A frame with its closure: the detector has handled the frame, and an event is recorded. -/
lemma prompt_frame {s : St Img} (hs : Drained s) (now : ℚ) (b : PixelBuffer Img) :
    ∃ t, prompt s (.frame now b) = some t ∧ Drained t ∧
      t.detector = (DetectionVC.captureOutput s.detector now b).detector ∧
      recordedBy s t = ((DetectionVC.captureOutput s.detector now b).handed.map
        (detectionOf (DetectionVC.captureOutput s.detector now b) b)).toList := by
  obtain ⟨hleaving, hqueue, hshown⟩ := hs
  refine ⟨finish (start (post (frame s now b))), rfl, ?_⟩
  unfold MainQueue.frame
  rw [hleaving, Option.isNone_none, if_pos rfl]
  dsimp only
  cases (DetectionVC.captureOutput s.detector now b).handed with
  | none => simp [post, start, finish, Drained, recordedBy, hqueue, hshown]
  | some n =>
    simp [post, start, finish, Drained, recordedBy, hqueue, hshown, detectionOf]

lemma Settled.prompt {s t : St Img} (hs : Settled s) {a : Imaging.Act Img}
    (h : prompt s a = some t) : Settled t := by
  cases a with
  | frame now b =>
    obtain ⟨u, hu, hdrained, hdet, -⟩ := prompt_frame hs.drained now b
    obtain rfl : u = t := by simpa [hu] using h
    exact ⟨hdrained, hdet ▸ hs.sane.captureOutput now b⟩
  | tick now =>
    obtain rfl : tick s now = t := by
      simpa [Scores.prompt, statements, MainQueue.step, next] using h
    have hshown : s.shown = none := hs.drained.2.2
    unfold tick
    rw [hshown, Option.isNone_none, if_pos rfl]
    exact ⟨⟨hs.drained.1, hs.drained.2.1, rfl⟩, hs.sane.updateThreshold now⟩

/-- The score with the copy is that with the threshold exactly when the copy is up to date
and a `Float32` holds the product. -/
lemma scoreOf_ready_iff {d : Detector Img} (hd : Sane d) {b : PixelBuffer Img} {n : ℕ}
    (hn : 0 < n) (hlt : threshold d < 340) :
    (scoreOf n (if d.planeWidth ≠ b.widthOfPlane then threshold d
        else d.intensityThreshhold)).value = n * threshold d ↔
      (d.planeWidth ≠ b.widthOfPlane ∨ d.intensityThreshhold = threshold d) ∧
        Representable 24 (n * threshold d) := by
  obtain ⟨j, hj⟩ := hd.threshold_eq
  have hexact : (scoreOf n (threshold d)).value = n * threshold d ↔
      Representable 24 (n * threshold d) := by
    rw [hj]
    exact scoreOf_eq_iff (by omega)
  split
  · rename_i hwidth
    rw [hexact, and_iff_right (.inl hwidth)]
  · rename_i hwidth
    rcases hd.copy_eq_or with heq | hbelow
    · rw [heq, hexact, and_iff_right (.inr rfl)]
    · -- a copy that is behind gives a lower score
      have hlow := scoreOf_lt hn hd.nonneg hbelow hlt
      refine iff_of_false hlow.ne fun h => ?_
      have heq := h.1.resolve_left hwidth
      linarith

/-- **One call**: a frame that is an event has its own score exactly when the copy is up to
date and the product a `Float32`, since the event has at least one bright pixel. -/
lemma own_iff_fresh {s : St Img} (hs : Settled s) (a : Imaging.Act Img) :
    OwnScore s a ↔ Fresh s a := by
  cases a with
  | tick now => exact Iff.rfl
  | frame now b =>
    obtain ⟨t, ht, -, -, hrec⟩ := prompt_frame hs.drained now b
    have hready := hs.sane.ready b
    have hcopy := ready_intensityThreshhold s.detector b
    have hown : OwnScore s (.frame now b) ↔ ∀ r ∈ recordedBy s t,
        r.score.value = (brightPoints (ready s.detector b) b).card * threshold s.detector := by
      simp [OwnScore, ht]
    rw [hown, hrec, DetectionVC.captureOutput_eq]
    unfold Fresh
    dsimp only
    rw [← isEvent_iff hready]
    by_cases hevent : isEvent (ready s.detector b) (scan (ready s.detector b) b) = true
    · obtain ⟨hn, -, hlt⟩ := of_isEvent hready hevent
      rw [threshold, ready_getIntensityThreshold] at hlt
      rw [if_pos hevent]
      simp only [Option.map_some, Option.toList_some, List.mem_singleton, forall_eq, detectionOf,
        counted_intensityThreshhold, hevent, true_imp_iff]
      rw [← scan_numBrightPixels hready.skip, ready_intensityThreshhold]
      exact scoreOf_ready_iff hs.sane hn hlt
    · rw [if_neg hevent]
      simp [hevent]

/-- **Whose threshold.** In every run every detection is scored with the threshold its frame
was judged by, exactly when at every event the copy is up to date or made again and a
`Float32` holds the product. -/
theorem own_score_iff (started : ℚ) (lastImage viewImage : Img) (as : List (Imaging.Act Img)) :
    Along prompt OwnScore (init started lastImage viewImage) as ↔
      Along prompt Fresh (init started lastImage viewImage) as := by
  have hinit : Settled (init started lastImage viewImage) :=
    ⟨⟨rfl, rfl, rfl⟩, sane_initial (by decide) started lastImage⟩
  exact along_congr (I := Settled) (E := fun _ _ => True) (fun _ _ _ hs _ h => hs.prompt h)
    (fun _ a hs _ => own_iff_fresh hs a) hinit (along_of_forall (fun _ _ => trivial) _ as)

/-- **A stale copy.** One event makes the tick at five seconds raise the threshold to 165, and
the next frame of the same width is still scored with 160. -/
theorem not_always_own_score :
    ¬ ∀ as : List (Imaging.Act Unit), Along prompt OwnScore (init 0 () ()) as := by
  intro h
  have hrun := h [.frame 1 (plain () 2 2 2 255), .tick 5, .frame 6 (plain () 2 2 2 255)]
  revert hrun
  decide +kernel

end Solta.Scores
