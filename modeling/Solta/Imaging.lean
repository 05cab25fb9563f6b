import Mathlib.Data.Rat.Cast.Order
import Mathlib.Algebra.Order.Field.Rat
import Solta.Float32
import Solta.Lib.Stride

/-!
The two camera detectors.

`DetectionVC` and `DetectionHelper` hold the same state and scan a frame the same way; they
differ in the stride and in what they do with an event. Swift's floating-point numbers are
exact rationals here, but for the score of an event, which is rounded as the program rounds
it; `Int` is `ℕ` where the program only counts.
-/

namespace Solta.Imaging

open Lib.Stride

inductive DetectionModes
  | YUV420v
  | BGRA
  deriving DecidableEq

inductive OperationState
  | TESTING
  | CALIBRATION
  | RUNNING
  | DORMANT
  | OTHER
  deriving DecidableEq

/-- A quotient of doubles: dividing by zero gives infinity, or no number for `0 / 0`. -/
inductive Flux
  | finite (q : ℚ)
  | infinite
  | nan
  deriving DecidableEq

namespace Flux

/-- `Double(n) / t`. -/
def div (n : ℕ) (t : ℚ) : Flux :=
  if t = 0 then (if n = 0 then .nan else .infinite) else .finite (n / t)

/-- The comparison `flux > r`, which is false of `nan`. -/
def gt : Flux → ℚ → Bool
  | .finite q, r => decide (r < q)
  | .infinite, _ => true
  | .nan, _ => false

end Flux

/-- A pixel buffer as the handlers see it: its geometry, the bytes at plane 0, and the
picture `createCGImage` makes of it. -/
structure PixelBuffer (Img : Type) where
  widthOfPlane : ℕ
  heightOfPlane : ℕ
  bytesPerRow : ℕ
  bytesPerRowOfPlane : ℕ
  width : ℕ
  height : ℕ
  plane : ℕ → UInt8
  image : Img

/-- The state the two detector classes share. -/
structure Detector (Img : Type) where
  numFrames : ℕ
  numEvents : ℕ
  timeStarted : ℚ
  timeElapsed : ℚ
  flux : Flux
  pixelsToSkip : ℕ
  intensityThreshholds : List (DetectionModes × ℚ)
  minRaySize : ℕ
  currentState : OperationState
  planeWidth : ℕ
  planeHeight : ℕ
  bytesPerRow : ℕ
  bytesPerRowofPlane : ℕ
  width : ℕ
  height : ℕ
  intensityThreshhold : ℚ
  cgimage : Img

def targetFlux : ℚ := 1 / 10

def detectionMode : DetectionModes := .YUV420v

/-- A detector as its class initialises it, at the clock reading `start`. -/
def initial {Img : Type} (pixelsToSkip : ℕ) (start : ℚ) (lastImage : Img) : Detector Img where
  numFrames := 0
  numEvents := 0
  timeStarted := start
  timeElapsed := start
  flux := .finite 0
  pixelsToSkip := pixelsToSkip
  intensityThreshholds := [(.BGRA, 450), (.YUV420v, 160)]
  minRaySize := 1
  currentState := .RUNNING
  planeWidth := 0
  planeHeight := 0
  bytesPerRow := 0
  bytesPerRowofPlane := 0
  width := 0
  height := 0
  intensityThreshhold := 0
  cgimage := lastImage

variable {Img : Type}

/-! ### Thresholds -/

def getIntensityThreshold (d : Detector Img) (mode : DetectionModes) : ℚ :=
  match d.intensityThreshholds.find? fun data => mode = data.1 with
  | some data => data.2
  | none => 0

def setIntensityThreshold (d : Detector Img) (mode : DetectionModes) (value : ℚ) : Detector Img :=
  let row := match mode with
    | .BGRA => 0
    | .YUV420v => 1
  { d with
    intensityThreshholds := d.intensityThreshholds.modify row fun data => (data.1, value) }

def incrementIntensityThreshold (d : Detector Img) (mode : DetectionModes) (value : ℚ) :
    Detector Img :=
  setIntensityThreshold d mode (getIntensityThreshold d mode + value)

/-- The timer's method, at the clock reading `now`. -/
def updateThreshold (now : ℚ) (d : Detector Img) : Detector Img :=
  let timeElapsed := now - d.timeStarted
  let flux := Flux.div d.numEvents timeElapsed
  let d := { d with timeElapsed := timeElapsed, flux := flux }
  if flux.gt targetFlux then incrementIntensityThreshold d detectionMode 5 else d

/-! ### One frame -/

/-- The cached geometry is read again when the width of plane 0 has changed. -/
def refresh (d : Detector Img) (b : PixelBuffer Img) : Detector Img :=
  if d.planeWidth ≠ b.widthOfPlane then
    { d with
      planeWidth := b.widthOfPlane
      planeHeight := b.heightOfPlane
      bytesPerRow := b.bytesPerRow
      bytesPerRowofPlane := b.bytesPerRowOfPlane
      width := b.width
      height := b.height
      intensityThreshhold := getIntensityThreshold d detectionMode }
  else d

/-- The locals of the scan, with the buffer indices read so far. -/
structure Scan where
  numBrightPixels : ℕ
  highestIntensity : ℚ
  highestIntensityPoint : ℤ × ℤ
  reads : List ℕ

def leastNormalMagnitude : ℚ := 1 / 2 ^ 1022

def Scan.start : Scan := ⟨0, leastNormalMagnitude, (-1, -1), []⟩

/-- The body of the two loops, at the point `(x, y)`. -/
def visit (d : Detector Img) (b : PixelBuffer Img) (s : Scan) (x y : ℕ) : Scan :=
  let index := x + y * d.bytesPerRowofPlane
  let intensity : ℚ := (b.plane index).toNat
  let s := { s with reads := s.reads ++ [index] }
  if intensity > getIntensityThreshold d detectionMode * (3 / 4) then
    let s := { s with numBrightPixels := s.numBrightPixels + 1 }
    if intensity > s.highestIntensity then
      { s with highestIntensity := intensity, highestIntensityPoint := (x, y) }
    else s
  else s

/-- The two nested loops over the sampled points of the frame. -/
def scan (d : Detector Img) (b : PixelBuffer Img) : Scan :=
  (stride d.width d.pixelsToSkip).foldl (fun s x =>
    (stride d.height d.pixelsToSkip).foldl (fun s y => visit d b s x y) s) Scan.start

/-- The guard of the event branch. -/
def isEvent (d : Detector Img) (s : Scan) : Bool :=
  decide (d.minRaySize ≤ s.numBrightPixels) &&
    decide (s.numBrightPixels ≤ d.width * d.height / 4)

/-- The detector when the scan starts: the frame is counted and the geometry is up to date. -/
def ready (d : Detector Img) (b : PixelBuffer Img) : Detector Img :=
  refresh { d with currentState := .RUNNING, numFrames := d.numFrames + 1 } b

/-- `CVPixelBufferLockBaseAddress` and its inverse. -/
inductive BufferCall
  | lock
  | unlock
  deriving DecidableEq

/-- What handling a frame leaves behind: the detector, the calls made on the buffer, the
indices read from it, and what was handed over for an event. -/
structure Capture (Img ρ : Type) where
  detector : Detector Img
  calls : List BufferCall
  reads : List ℕ
  handed : Option ρ

/-- The detector once the scanned frame has been counted as an event. -/
def counted (d : Detector Img) (now : ℚ) : Detector Img :=
  { d with
    numEvents := d.numEvents + 1
    timeElapsed := now - d.timeStarted
    flux := Flux.div (d.numEvents + 1) (now - d.timeStarted) }

/-- The score both classes compute for an event. -/
def scoreOf (numBrightPixels : ℕ) (intensityThreshhold : ℚ) : Float32 :=
  let score := CGFloat.mul (CGFloat.ofInt numBrightPixels) intensityThreshhold
  Float32.ofCGFloat score

/-- A frame of one plane whose bytes are all `v`. -/
def plain (image : Img) (width height row : ℕ) (v : UInt8) : PixelBuffer Img where
  widthOfPlane := width
  heightOfPlane := height
  bytesPerRow := row
  bytesPerRowOfPlane := row
  width := width
  height := height
  plane := fun _ => v
  image := image

/-- What reaches a detector: a frame, or a tick of its timer, at a clock reading. -/
inductive Act (Img : Type)
  | frame (now : ℚ) (b : PixelBuffer Img)
  | tick (now : ℚ)

def Act.now : Act Img → ℚ
  | .frame now _ => now
  | .tick now => now

/-! ### What the parts of a frame leave alone -/

section ready

variable (d : Detector Img) (b : PixelBuffer Img)

@[simp] lemma ready_numEvents : (ready d b).numEvents = d.numEvents := by
  unfold ready refresh; split <;> rfl

@[simp] lemma ready_timeStarted : (ready d b).timeStarted = d.timeStarted := by
  unfold ready refresh; split <;> rfl

@[simp] lemma ready_pixelsToSkip : (ready d b).pixelsToSkip = d.pixelsToSkip := by
  unfold ready refresh; split <;> rfl

@[simp] lemma ready_minRaySize : (ready d b).minRaySize = d.minRaySize := by
  unfold ready refresh; split <;> rfl

@[simp] lemma ready_intensityThreshholds :
    (ready d b).intensityThreshholds = d.intensityThreshholds := by
  unfold ready refresh; split <;> rfl

@[simp] lemma ready_cgimage : (ready d b).cgimage = d.cgimage := by
  unfold ready refresh; split <;> rfl

@[simp] lemma ready_getIntensityThreshold (mode : DetectionModes) :
    getIntensityThreshold (ready d b) mode = getIntensityThreshold d mode := by
  unfold getIntensityThreshold; rw [ready_intensityThreshholds]

@[simp] lemma counted_numEvents (now : ℚ) : (counted d now).numEvents = d.numEvents + 1 := rfl
@[simp] lemma counted_timeStarted (now : ℚ) : (counted d now).timeStarted = d.timeStarted := rfl
@[simp] lemma counted_minRaySize (now : ℚ) : (counted d now).minRaySize = d.minRaySize := rfl
@[simp] lemma counted_intensityThreshhold (now : ℚ) :
    (counted d now).intensityThreshhold = d.intensityThreshhold := rfl
@[simp] lemma counted_intensityThreshholds (now : ℚ) :
    (counted d now).intensityThreshholds = d.intensityThreshholds := rfl

end ready

/-- A tick changes nothing but the readings of the clock and the table of thresholds. -/
lemma updateThreshold_eq (now : ℚ) (d : Detector Img) :
    ∃ table, updateThreshold now d = { d with
      timeElapsed := now - d.timeStarted
      flux := Flux.div d.numEvents (now - d.timeStarted)
      intensityThreshholds := table } := by
  unfold updateThreshold
  dsimp only
  split
  · exact ⟨_, rfl⟩
  · exact ⟨d.intensityThreshholds, rfl⟩

/-! ### The scan -/

lemma visit_reads (d : Detector Img) (b : PixelBuffer Img) (s : Scan) (x y : ℕ) :
    (visit d b s x y).reads = s.reads ++ [x + y * d.bytesPerRowofPlane] := by
  unfold visit
  dsimp only
  split_ifs <;> rfl

lemma scan_eq (d : Detector Img) (b : PixelBuffer Img) :
    scan d b = (grid d.width d.height d.pixelsToSkip).foldl (fun s p => visit d b s p.1 p.2)
      Scan.start := by
  unfold scan
  rw [foldl_grid]

/-- The scan reads the addresses of its grid, in order. -/
lemma scan_reads (d : Detector Img) (b : PixelBuffer Img) :
    (scan d b).reads = addresses d.width d.height d.bytesPerRowofPlane d.pixelsToSkip := by
  have hfold : ∀ (g : List (ℕ × ℕ)) (s : Scan),
      (g.foldl (fun s p => visit d b s p.1 p.2) s).reads =
        s.reads ++ g.map fun p => p.1 + p.2 * d.bytesPerRowofPlane := by
    intro g
    induction g with
    | nil => simp
    | cons p g ih =>
      intro s
      rw [List.foldl_cons, ih, visit_reads]
      simp
  rw [scan_eq, hfold]
  rfl

end Solta.Imaging

namespace Solta.DetectionVC

open Solta.Imaging

variable {Img : Type}

def pixelsToSkip : ℕ := 2

def initial (start : ℚ) (lastImage : Img) : Detector Img :=
  Imaging.initial pixelsToSkip start lastImage

/-- The frame callback. An event hands `numBrightPixels` to a closure on the main queue. -/
def captureOutput (d : Detector Img) (now : ℚ) (b : PixelBuffer Img) : Capture Img ℕ :=
  let d := { d with currentState := .RUNNING, numFrames := d.numFrames + 1 }
  match d.currentState with
  | .RUNNING | .CALIBRATION | .OTHER | .TESTING =>
    let d := refresh d b
    let s := scan d b
    if isEvent d s then
      let numEvents := d.numEvents + 1
      let timeElapsed := now - d.timeStarted
      let d := { d with
        numEvents := numEvents
        timeElapsed := timeElapsed
        flux := Flux.div numEvents timeElapsed
        cgimage := b.image }
      ⟨d, [.lock, .unlock], s.reads, some s.numBrightPixels⟩
    else ⟨d, [.lock, .unlock], s.reads, none⟩
  | .DORMANT => ⟨d, [], [], none⟩

/-- The frame callback in one line: scan when ready, and count an event. -/
lemma captureOutput_eq (d : Detector Img) (now : ℚ) (b : PixelBuffer Img) :
    captureOutput d now b =
      if isEvent (ready d b) (scan (ready d b) b) then
        ⟨{ counted (ready d b) now with cgimage := b.image }, [.lock, .unlock],
          (scan (ready d b) b).reads, some (scan (ready d b) b).numBrightPixels⟩
      else ⟨ready d b, [.lock, .unlock], (scan (ready d b) b).reads, none⟩ := rfl

/-- One call on the detector. No such call traps. -/
def act (d : Detector Img) : Act Img → Option (Detector Img)
  | .frame now b => some (captureOutput d now b).detector
  | .tick now => some (updateThreshold now d)

lemma act_isSome (d : Detector Img) (a : Act Img) : ∃ e, act d a = some e := by
  cases a <;> exact ⟨_, rfl⟩

end Solta.DetectionVC

namespace Solta.DetectionHelper

open Solta.Imaging

variable {Img : Type}

def pixelsToSkip : ℕ := 8

def initial (start : ℚ) (lastImage : Img) : Detector Img :=
  Imaging.initial pixelsToSkip start lastImage

/-- The frame handler. An event hands the picture and the score to `addDetection`, unless
the flux is too high. -/
def capturedOutput (d : Detector Img) (now : ℚ) (b : PixelBuffer Img) :
    Capture Img (Img × Float32) :=
  let d := { d with currentState := .RUNNING, numFrames := d.numFrames + 1 }
  match d.currentState with
  | .RUNNING | .CALIBRATION | .OTHER | .TESTING =>
    let d := refresh d b
    let s := scan d b
    if isEvent d s then
      let numEvents := d.numEvents + 1
      let timeElapsed := now - d.timeStarted
      let flux := Flux.div numEvents timeElapsed
      let d := { d with numEvents := numEvents, timeElapsed := timeElapsed, flux := flux }
      -- returns here without unlocking the buffer
      if flux.gt (targetFlux * (3 / 2)) then ⟨d, [.lock], s.reads, none⟩
      else
        let d := { d with cgimage := b.image }
        ⟨d, [.lock, .unlock], s.reads,
          some (d.cgimage, scoreOf s.numBrightPixels d.intensityThreshhold)⟩
    else ⟨d, [.lock, .unlock], s.reads, none⟩
  | .DORMANT => ⟨d, [], [], none⟩

/-- The frame handler in one line: scan when ready, count an event, and drop it when the
flux is too high. -/
lemma capturedOutput_eq (d : Detector Img) (now : ℚ) (b : PixelBuffer Img) :
    capturedOutput d now b =
      if isEvent (ready d b) (scan (ready d b) b) then
        if (counted (ready d b) now).flux.gt (targetFlux * (3 / 2)) then
          ⟨counted (ready d b) now, [.lock], (scan (ready d b) b).reads, none⟩
        else
          ⟨{ counted (ready d b) now with cgimage := b.image }, [.lock, .unlock],
            (scan (ready d b) b).reads,
            some (b.image, scoreOf (scan (ready d b) b).numBrightPixels
              (ready d b).intensityThreshhold)⟩
      else ⟨ready d b, [.lock, .unlock], (scan (ready d b) b).reads, none⟩ := rfl

/-- One call on the detector. -/
def act (d : Detector Img) : Act Img → Option (Detector Img)
  | .frame now b => some (capturedOutput d now b).detector
  | .tick now => some (updateThreshold now d)

end Solta.DetectionHelper
