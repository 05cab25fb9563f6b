import Solta.Imaging
import Solta.Lib.Run

/-!
The locks on the frames' buffers.

Both handlers lock the buffer of a frame and unlock it before they return. The helper has one
more way out: an event whose flux is too high returns at once, and its buffer stays locked.
-/

namespace Solta.Buffers

open Lib.Run Solta.Imaging

variable {Img ρ : Type}

/-- A buffer that is locked is locked once and then unlocked once. -/
def GivenBack (calls : List BufferCall) : Prop := .lock ∈ calls → calls = [.lock, .unlock]

/-- The frame is an event, and with it the flux is too high. -/
def Suppressed (d : Detector Img) (now : ℚ) (b : PixelBuffer Img) : Prop :=
  isEvent (ready d b) (scan (ready d b) b) ∧
    (Flux.div (d.numEvents + 1) (now - d.timeStarted)).gt (targetFlux * (3 / 2))

lemma givenBack_captureOutput (d : Detector Img) (now : ℚ) (b : PixelBuffer Img) :
    GivenBack (DetectionVC.captureOutput d now b).calls := by
  rw [DetectionVC.captureOutput_eq]
  split <;> exact fun _ => rfl

lemma givenBack_capturedOutput_iff (d : Detector Img) (now : ℚ) (b : PixelBuffer Img) :
    GivenBack (DetectionHelper.capturedOutput d now b).calls ↔ ¬ Suppressed d now b := by
  have hflux : (counted (ready d b) now).flux =
      Flux.div (d.numEvents + 1) (now - d.timeStarted) := by
    simp [counted]
  rw [DetectionHelper.capturedOutput_eq, hflux]
  unfold Suppressed
  split
  · rename_i hevent
    split
    · rename_i hgt
      exact ⟨fun h => by simp [GivenBack] at h, fun h => absurd ⟨hevent, hgt⟩ h⟩
    · rename_i hgt
      exact ⟨fun _ h => hgt h.2, fun _ _ => rfl⟩
  · rename_i hevent
    exact ⟨fun _ h => hevent h.1, fun _ _ => rfl⟩

/-! ### Runs -/

/-- A detector, and the buffers that its calls have left locked. -/
structure Held (Img : Type) where
  detector : Detector Img
  locked : List (PixelBuffer Img)

/-- The buffer of a frame stays locked when there are fewer calls to unlock it than to lock
it. -/
def leftLocked (calls : List BufferCall) (b : PixelBuffer Img) : List (PixelBuffer Img) :=
  if calls.count .unlock < calls.count .lock then [b] else []

/-- One frame for a handler, or a tick of its timer. -/
def step (handler : Detector Img → ℚ → PixelBuffer Img → Capture Img ρ) (s : Held Img) :
    Act Img → Option (Held Img)
  | .frame now b =>
    let c := handler s.detector now b
    some ⟨c.detector, s.locked ++ leftLocked c.calls b⟩
  | .tick now => some ⟨updateThreshold now s.detector, s.locked⟩

def NoneLocked (s : Held Img) : Prop := s.locked = []

/-- No frame is suppressed. -/
def Accepted (s : Held Img) : Act Img → Prop
  | .frame now b => ¬ Suppressed s.detector now b
  | .tick _ => True

/-- The handlers make one of two lists of calls. -/
lemma leftLocked_eq_nil_iff {calls : List BufferCall} (b : PixelBuffer Img)
    (h : calls = [.lock, .unlock] ∨ calls = [.lock]) :
    leftLocked calls b = [] ↔ GivenBack calls := by
  rcases h with rfl | rfl
  · exact ⟨fun _ _ => rfl, fun _ => rfl⟩
  · simp [leftLocked, GivenBack]

lemma calls_capturedOutput (d : Detector Img) (now : ℚ) (b : PixelBuffer Img) :
    (DetectionHelper.capturedOutput d now b).calls = [.lock, .unlock] ∨
      (DetectionHelper.capturedOutput d now b).calls = [.lock] := by
  rw [DetectionHelper.capturedOutput_eq]
  split
  · split
    · exact Or.inr rfl
    · exact Or.inl rfl
  · exact Or.inl rfl

/-- **One step** of the helper leaves no buffer locked exactly when it accepts its frame. -/
lemma accepted_iff {s : Held Img} (hs : NoneLocked s) (a : Act Img) :
    Accepted s a ↔ ∃ t, step DetectionHelper.capturedOutput s a = some t ∧ NoneLocked t := by
  cases a with
  | frame now b =>
    unfold Accepted step NoneLocked
    dsimp only
    rw [← givenBack_capturedOutput_iff,
      ← leftLocked_eq_nil_iff b (calls_capturedOutput s.detector now b)]
    simp only [Option.some.injEq, exists_eq_left', List.append_eq_nil_iff]
    exact ⟨fun h => ⟨hs, h⟩, fun h => h.2⟩
  | tick now => exact ⟨fun _ => ⟨_, rfl, hs⟩, fun _ => trivial⟩

lemma noneLocked_step {s : Held Img} (hs : NoneLocked s) (a : Act Img) :
    ∃ t, step DetectionVC.captureOutput s a = some t ∧ NoneLocked t := by
  cases a with
  | frame now b =>
    refine ⟨_, rfl, ?_⟩
    have hcalls : (DetectionVC.captureOutput s.detector now b).calls = [.lock, .unlock] := by
      rw [DetectionVC.captureOutput_eq]
      split <;> rfl
    unfold NoneLocked at hs ⊢
    dsimp only
    rw [hs, hcalls]
    rfl
  | tick now => exact ⟨_, rfl, hs⟩

end Solta.Buffers
