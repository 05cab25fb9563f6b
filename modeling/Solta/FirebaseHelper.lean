import Mathlib.Data.Rat.Floor
import Mathlib.Logic.Function.Basic
import Solta.Detection
import Solta.Lib.Run

/-!
Filing a detection: `addDetection`, and what becomes of its writes and uploads.

Any number of devices share one database and one storage. A device's `setValue` calls reach
the database in call order, the calls of different devices in any order. An upload stores
its object, reports, asks for the location of the object and writes it, each some time after
the one before; it may fail at every point. An action that cannot happen yet changes nothing.
-/

namespace Solta.FirebaseHelper

open Lib Lib.Run

variable {Img : Type}

/-- A `setValue` call, and the detection it is made for. -/
structure Write (Img : Type) where
  detection : Detection Img
  path : Path
  value : Value

inductive Stage
  | sent
  | stored
  | asked
  | done
  | failed
  deriving DecidableEq

/-- A `putData` call. Its closures have captured `currentDetection`, `eventRef` and
`imageStorageRef`; `detection` is the one that was to be added. -/
structure Upload (Img : Type) where
  device : ℕ
  detection : Detection Img
  currentDetection : Detection Img
  eventRef : Path
  imageStorageRef : Path
  data : Img
  stage : Stage

/-- The database, the storage and the devices, with all detections added and all writes
issued so far. -/
structure World (Img : Type) where
  database : DataSnapshot
  storage : Path → Option Img
  currentUser : ℕ → Option User
  outbox : ℕ → List (Write Img)
  detections : ℕ → List (Detection Img)
  uploads : List (Upload Img)
  added : List (Detection Img)
  issued : List (Write Img)

def init (currentUser : ℕ → Option User) : World Img where
  database := PathStore.empty
  storage _ := none
  currentUser := currentUser
  outbox _ := []
  detections _ := []
  uploads := []
  added := []
  issued := []

/-! ### References -/

def eventRef (d : Detection Img) : Option Path :=
  (userRef d.login).bind fun userRef => DatabaseReference.child userRef d.getDate

def eventStorageRef (d : Detection Img) : Path :=
  StorageReference.child (userStorageRef d.login) d.getDate

/-- `Int32(x)` drops the fraction and traps when the rest is out of range. -/
def toInt32 (x : ℚ) : Option ℤ :=
  let n := if 0 ≤ x then ⌊x⌋ else ⌈x⌉
  if -2147483648 ≤ n ∧ n ≤ 2147483647 then some n else none

def imageName (n : ℤ) : Text :=
  (if n < 0 then ['-'] else []) ++ Nat.toDigits 10 n.natAbs ++ ".jpg".toList

def imageStorageRef (d : Detection Img) : Option Path :=
  (toInt32 d.score.value).map fun n => StorageReference.child (eventStorageRef d) (imageName n)

/-! ### Actions -/

/-- `eventRef.child(key).setValue(value)`. -/
def setValue (d : Detection Img) (eventRef : Path) (key : Text) (value : Value) : Write Img :=
  ⟨d, eventRef ++ [key], value⟩

/-- The writes of the call itself. -/
def fieldWrites (d : Detection Img) (eventRef : Path) : List (Write Img) :=
  [setValue d eventRef millisKey (.num d.millis), setValue d eventRef scoreKey (.num d.score.value),
    setValue d eventRef schoolKey (.text d.school)]

/-- The `putData` call, none for a detection without image. -/
def putData (device : ℕ) (d : Detection Img) (eventRef : Path) : Option (List (Upload Img)) :=
  match d.image with
  | none => some []
  | some image => do
    let imageStorageRef ← imageStorageRef d
    let data ← UIImageJPEGRepresentation image
    some [⟨device, d, d, eventRef, imageStorageRef, data, .sent⟩]

/-- Hand `ws` to the database connection of a device. -/
def World.issue (w : World Img) (device : ℕ) (ws : List (Write Img)) : World Img :=
  { w with
    outbox := Function.update w.outbox device (w.outbox device ++ ws)
    issued := w.issued ++ ws }

def addDetection (w : World Img) (device : ℕ) (detection : Detection Img) :
    Option (World Img) := do
  let eventRef ← eventRef detection
  let uploads ← putData device detection eventRef
  let w := { w with uploads := w.uploads ++ uploads }
  let w := w.issue device (fieldWrites detection eventRef)
  some
    { w with
      detections :=
        Function.update w.detections device (w.detections device ++ [detection])
      added := w.added ++ [detection] }

/-- `addDetection(detection: Detection(image:score:))`. -/
def detect (w : World Img) (device : ℕ) (now : ℚ) (image : Option (UIImage Img))
    (score : Float32) : Option (World Img) :=
  (Detection.ofImage (w.currentUser device) now image score).bind (addDetection w device)

def signIn (w : World Img) (device : ℕ) (user : Option User) : World Img :=
  { w with currentUser := Function.update w.currentUser device user }

/-- The oldest pending write of a device reaches the database. -/
def apply (w : World Img) (device : ℕ) : World Img :=
  match w.outbox device with
  | [] => w
  | x :: xs =>
    { w with
      database := w.database.set x.path x.value
      outbox := Function.update w.outbox device xs }

/-- The upload `i`, if it is at one of the stages. -/
def uploadAt (w : World Img) (i : ℕ) (stages : List Stage) : Option (Upload Img) :=
  w.uploads[i]?.filter fun u => u.stage ∈ stages

/-- Nothing but the stage of an upload changes. -/
def move (w : World Img) (i : ℕ) (stages : List Stage) (stage : Stage) : World Img :=
  match uploadAt w i stages with
  | none => w
  | some u => { w with uploads := w.uploads.set i { u with stage := stage } }

/-- The object is in the storage, over the one that was there. -/
def store (w : World Img) (i : ℕ) : World Img :=
  match uploadAt w i [.sent] with
  | none => w
  | some u =>
    { w with
      storage := Function.update w.storage u.imageStorageRef (some u.data)
      uploads := w.uploads.set i { u with stage := .stored } }

/-- The completion of `putData` without metadata. -/
def putFailed (w : World Img) (i : ℕ) : World Img := move w i [.sent, .stored] .failed

/-- The completion of `putData` with metadata asks for the location. -/
def putDone (w : World Img) (i : ℕ) : World Img := move w i [.stored] .asked

/-- The completion of `downloadURL` with an error. -/
def urlFailed (w : World Img) (i : ℕ) : World Img := move w i [.asked] .failed

/-- The closure's detection takes the location. -/
def Upload.located (u : Upload Img) (url : URL) : Upload Img :=
  { u with
    currentDetection := { u.currentDetection with imageURL := some url }.updateURL url
    stage := .done }

def Upload.urlWrites (u : Upload Img) : List (Write Img) :=
  u.currentDetection.imageURLString.toList.map fun s =>
    setValue u.detection u.eventRef urlKey (.text s)

/-- The completion of `downloadURL` with the location. -/
def urlDone (cloud : Cloud) (w : World Img) (i : ℕ) : World Img :=
  match uploadAt w i [.asked] with
  | none => w
  | some u =>
    let u := u.located (cloud.downloadURL u.imageStorageRef)
    { w with uploads := w.uploads.set i u }.issue u.device u.urlWrites

inductive Act (Img : Type)
  | signIn (device : ℕ) (user : Option User)
  | detect (device : ℕ) (now : ℚ) (image : Option (UIImage Img)) (score : Float32)
  | apply (device : ℕ)
  | store (i : ℕ)
  | putFailed (i : ℕ)
  | putDone (i : ℕ)
  | urlFailed (i : ℕ)
  | urlDone (i : ℕ)

def step (cloud : Cloud) (w : World Img) : Act Img → Option (World Img)
  | .signIn device user => some (signIn w device user)
  | .detect device now image score => detect w device now image score
  | .apply device => some (apply w device)
  | .store i => some (store w i)
  | .putFailed i => some (putFailed w i)
  | .putDone i => some (putDone w i)
  | .urlFailed i => some (urlFailed w i)
  | .urlDone i => some (urlDone cloud w i)

/-! ### What the actions leave alone -/

section

variable (w : World Img) (device i : ℕ) (cloud : Cloud)

@[simp] lemma apply_added : (apply w device).added = w.added := by
  unfold apply
  split <;> rfl

@[simp] lemma apply_uploads : (apply w device).uploads = w.uploads := by
  unfold apply
  split <;> rfl

@[simp] lemma apply_storage : (apply w device).storage = w.storage := by
  unfold apply
  split <;> rfl

@[simp] lemma urlDone_added : (urlDone cloud w i).added = w.added := by
  unfold urlDone
  split <;> rfl

end

end Solta.FirebaseHelper
