import Mathlib.Data.List.Sort
import Solta.DateFormatter
import Solta.Float32
import Solta.Lib.PathStore

/-!
Detections, and the nodes they are read from.

A detection is built from a picture and a score at the reading of a clock, or from the
snapshot of an event node. Times are exact rationals and scores are `Float32`s; a failed
forced cast, a forced `nil` and a raised exception are `none`. The data of a picture is the
picture.
-/

namespace Solta

open Lib

/-- What a leaf of the database holds. -/
inductive Value
  | num (x : ℚ)
  | text (s : Text)
  deriving DecidableEq

/-- `as! Double`. -/
def Value.asDouble : Value → Option ℚ
  | num x => some x
  | text _ => none

/-- `as! Float` takes only the numbers a `Float` holds. -/
def Value.asFloat : Value → Option Float32
  | num x => Float32.ofExactly x
  | text _ => none

/-- `as! String`. -/
def Value.asString : Value → Option Text
  | num _ => none
  | text s => some s

lemma Value.asDouble_eq_some {v : Value} {x : ℚ} : v.asDouble = some x ↔ v = num x := by
  cases v <;> simp [asDouble]

lemma Value.asFloat_eq_some {v : Value} {x : Float32} : v.asFloat = some x ↔ v = num x.value := by
  cases v <;> simp [asFloat, Float32.ofExactly_eq_some]

lemma Value.asString_eq_some {v : Value} {s : Text} : v.asString = some s ↔ v = text s := by
  cases v <;> simp [asString]

/-! ### Locations and pictures -/

def isURLCharacter (c : Char) : Bool :=
  c.isAlphanum ∨ c ∈ "-._~:/?#[]@!$&'()*+,;=%".toList

/-- Only texts of characters that may stand in a location are one. -/
def isURL (s : Text) : Bool := s ≠ [] && s.all isURLCharacter

structure URL where
  absoluteString : Text
  valid : isURL absoluteString
  deriving DecidableEq

/-- `URL(string:)`. -/
def URL.ofString (s : Text) : Option URL := if h : isURL s then some ⟨s, h⟩ else none

/-- The storage service: the location it hands out for an object, and the texts its
`reference(forURL:)` takes without raising, the locations handed out among them. -/
structure Cloud where
  downloadURL : Path → URL
  accepts : Text → Bool
  accepts_downloadURL (object : Path) : accepts (downloadURL object).absoluteString

namespace Cloud

/-- The text all the locations of the app's bucket begin with. -/
def bucketURL : Text :=
  "https://firebasestorage.googleapis.com/v0/b/solta-storage.appspot.com/o/".toList

def hexDigit (n : ℕ) : Char := (Nat.digitChar n).toUpper

/-- The escape of a character in the name of an object. -/
def percentEncode (c : Char) : Text :=
  if c.isAlphanum ∨ c ∈ "-._~".toList then [c]
  else (String.utf8EncodeChar c).flatMap fun b =>
    ['%', hexDigit (b.toNat / 16), hexDigit (b.toNat % 16)]

def objectURL (object : Path) : Text :=
  bucketURL ++ (['/'].intercalate object).flatMap percentEncode ++ "?alt=media".toList

lemma hexDigit_isAlphanum {n : ℕ} (h : n < 16) : (hexDigit n).isAlphanum := by
  have : ∀ m : Fin 16, (hexDigit m).isAlphanum := by decide
  exact this ⟨n, h⟩

lemma percentEncode_valid {c x : Char} (h : x ∈ percentEncode c) : isURLCharacter x := by
  have halnum : ∀ y : Char, y.isAlphanum → isURLCharacter y := by simp_all [isURLCharacter]
  unfold percentEncode at h
  split at h
  · rename_i hc
    obtain rfl : x = c := by simpa using h
    have hmarks : "-._~".toList.all isURLCharacter := by decide
    exact hc.elim (halnum x) (List.all_eq_true.mp hmarks x)
  · obtain ⟨b, -, hx⟩ := List.mem_flatMap.mp h
    have hb : b.toNat < 256 := b.toNat_lt
    simp only [List.mem_cons, List.not_mem_nil, or_false] at hx
    rcases hx with rfl | rfl | rfl
    · decide
    · exact halnum _ (hexDigit_isAlphanum (by omega))
    · exact halnum _ (hexDigit_isAlphanum (by omega))

lemma bucketURL_prefix (object : Path) : bucketURL <+: objectURL object := by
  unfold objectURL
  rw [List.append_assoc]
  exact List.prefix_append _ _

lemma objectURL_ne_nil (object : Path) : objectURL object ≠ [] := by
  intro h
  have hpre := bucketURL_prefix object
  rw [h, List.prefix_nil] at hpre
  exact absurd hpre (by decide)

lemma objectURL_valid (object : Path) : isURL (objectURL object) := by
  have hpre : bucketURL.all isURLCharacter := by decide
  have hend : "?alt=media".toList.all isURLCharacter := by decide
  unfold isURL
  rw [Bool.and_eq_true, decide_eq_true_iff, List.all_eq_true]
  refine ⟨objectURL_ne_nil object, fun c hc => ?_⟩
  rcases List.mem_append.mp hc with hc | hc
  · rcases List.mem_append.mp hc with hc | hc
    · exact List.all_eq_true.mp hpre c hc
    · obtain ⟨a, -, ha⟩ := List.mem_flatMap.mp hc
      exact percentEncode_valid ha
  · exact List.all_eq_true.mp hend c hc

/-- The service at the app's bucket. -/
def appBucket : Cloud where
  downloadURL object := ⟨objectURL object, objectURL_valid object⟩
  accepts url := bucketURL.isPrefixOf url
  accepts_downloadURL object := by
    rw [List.isPrefixOf_iff_prefix]
    exact bucketURL_prefix object

end Cloud

/-- `UIImage()` holds no picture. -/
inductive UIImage (Img : Type)
  | blank
  | picture (image : Img)
  deriving DecidableEq

variable {Img : Type}

/-- There is no data of an image without a picture. -/
def UIImageJPEGRepresentation : UIImage Img → Option Img
  | .blank => none
  | .picture image => some image

/-! ### Detections -/

structure Detection (Img : Type) where
  user : Option User
  dateFormatter : DateFormatter := {}
  date : Date
  dateString : Text := []
  login : Text := []
  millis : ℚ := 0
  image : Option (UIImage Img)
  imageURLString : Option Text := some "2ndpage.png".toList
  imageURL : Option URL := URL.ofString "2ndpage.png".toList
  score : Float32 := 0
  school : Text := "Craig Kielburger Secondary School".toList
  deriving DecidableEq

namespace Detection

def getDate (d : Detection Img) : Text := d.dateFormatter.string d.date

/-- `init(image:score:)` with the clock at `now`. -/
def ofImage (currentUser : Option User) (now : ℚ) (image : Option (UIImage Img))
    (score : Float32) : Option (Detection Img) := do
  let user ← currentUser
  let email ← user.email
  let login ← getLoginFromEmail email
  let date : Date := ⟨now⟩
  some
    { user := some user
      dateFormatter := clockFormatter
      date := date
      dateString := clockFormatter.string date
      login := login
      millis := date.timeIntervalSince1970
      image := image
      score := score }

/-- `init()` with the clock at `now`; `named` is the picture the app comes with. -/
def init (currentUser : Option User) (named : Option (UIImage Img)) (now : ℚ) :
    Option (Detection Img) := do
  let user ← currentUser
  let date : Date := ⟨now⟩
  let email ← user.email
  let login ← getLoginFromEmail email
  some
    { user := some user
      dateFormatter := clockFormatter
      date := date
      dateString := clockFormatter.string date
      login := login
      millis := date.timeIntervalSince1970
      image := named }

/-- What the initializers that read the clock build: the key is the date's, the login the
user's. -/
structure Built (d : Detection Img) : Prop where
  dateFormatter : d.dateFormatter = clockFormatter
  dateString : d.dateString = d.getDate
  millis : d.millis = d.date.timeIntervalSince1970
  login : ∃ user email, d.user = some user ∧ user.email = some email ∧
    getLoginFromEmail email = some d.login

lemma ofImage_eq_some {currentUser : Option User} {now : ℚ} {image : Option (UIImage Img)}
    {score : Float32} {d : Detection Img} (h : ofImage currentUser now image score = some d) :
    d.Built ∧ d.user = currentUser ∧ d.date = ⟨now⟩ ∧ d.image = image ∧ d.score = score := by
  simp only [ofImage, Option.bind_eq_bind, Option.bind_eq_some_iff, Option.some.injEq] at h
  obtain ⟨user, rfl, email, hemail, login, hlogin, rfl⟩ := h
  exact ⟨⟨rfl, rfl, rfl, user, email, rfl, hemail, hlogin⟩, rfl, rfl, rfl, rfl⟩

lemma init_eq_some {currentUser : Option User} {named : Option (UIImage Img)} {now : ℚ}
    {d : Detection Img} (h : init currentUser named now = some d) : d.Built ∧ d.date = ⟨now⟩ := by
  simp only [init, Option.bind_eq_bind, Option.bind_eq_some_iff, Option.some.injEq] at h
  obtain ⟨user, rfl, email, hemail, login, hlogin, rfl⟩ := h
  exact ⟨⟨rfl, rfl, rfl, user, email, rfl, hemail, hlogin⟩, rfl⟩

lemma Built.getDate_eq {d : Detection Img} (h : d.Built) :
    d.getDate = clockFormatter.string d.date := by
  unfold getDate
  rw [h.dateFormatter]

lemma Built.getDate_isValidKey {d : Detection Img} (h : d.Built) :
    FValidation.isValidKey d.getDate := by
  rw [h.getDate_eq]
  exact clockFormatter_isValidKey _

/-- `updateURL(url:)`. -/
def updateURL (d : Detection Img) (url : URL) : Detection Img :=
  { d with imageURLString := some url.absoluteString }

end Detection

/-! ### Snapshots -/

namespace FUtilities

/-- The UTF-16 code units of a text, by which a literal comparison goes. -/
def utf16 (s : Text) : List ℕ :=
  s.flatMap fun c =>
    if c.toNat < 0x10000 then [c.toNat]
    else [0xD800 + (c.toNat - 0x10000) / 0x400, 0xDC00 + (c.toNat - 0x10000) % 0x400]

def tryParseStringToInt (str : Text) : Option ℤ :=
  let negative := str.head? = some '-'
  let ds := if negative then str.tail else str
  if 11 < str.length ∨ ds = [] ∨ ¬ ds.all Char.isDigit then none
  else
    let value : ℤ := ds.foldl (fun v c => v * 10 + (c.toNat - '0'.toNat)) 0
    let value := if negative then -value else value
    if value < -2147483648 ∨ 2147483647 < value then none else some value

def minName : Text := "[MIN_NAME]".toList
def maxName : Text := "[MAX_NAME]".toList

/-- Keys that are 32-bit integers come first and in their order. -/
def compareNames (a b : Text) : Ordering :=
  match tryParseStringToInt a, tryParseStringToInt b with
  | some aAsInt, some bAsInt => (compare aAsInt bAsInt).then (compare a.length b.length)
  | some _, none => .lt
  | none, some _ => .gt
  | none, none => compare (utf16 a) (utf16 b)

/-- The least and the greatest name are single objects and known as such; a key never has
their texts, which hold brackets. -/
def compareKey (a b : Text) : Ordering :=
  if a = b then .eq
  else if a = minName ∨ b = maxName then .lt
  else if b = minName ∨ a = maxName then .gt
  else compareNames a b

end FUtilities

abbrev DataSnapshot := PathStore Text Value

namespace DataSnapshot

def hasChild (s : DataSnapshot) (key : Text) : Bool := (s.below [key]).Exists

/-- The keys of the children, in the order the children are listed. -/
def childKeys (s : DataSnapshot) : List Text :=
  s.children.insertionSort fun a b => FUtilities.compareKey a b ≠ .gt

/-- `children.allObjects`. -/
def allObjects (s : DataSnapshot) : List DataSnapshot := s.childKeys.map fun key => s.below [key]

lemma childKeys_perm (s : DataSnapshot) : s.childKeys.Perm s.children :=
  List.perm_insertionSort ..

lemma mem_allObjects {s c : DataSnapshot} :
    c ∈ s.allObjects ↔ ∃ key ∈ s.children, c = s.below [key] := by
  simp only [allObjects, List.mem_map, s.childKeys_perm.mem_iff, eq_comm]

/-- The cast of a value to a dictionary. -/
def isDictionary (s : DataSnapshot) : Bool := s.Exists ∧ s.get [] = none

lemma isDictionary_of_get {s : DataSnapshot} {key : Text} {v : Value}
    (h : s.get [key] = some v) : s.isDictionary := by
  simp only [isDictionary, decide_eq_true_eq]
  refine ⟨PathStore.exists_iff.mpr ⟨_, _, h⟩, ?_⟩
  by_contra hne
  obtain ⟨w, hw⟩ := Option.ne_none_iff_exists'.mp hne
  exact (PathStore.apart_of_get hw h (by simp)).1 (List.nil_prefix)

end DataSnapshot

/-! ### Reading a detection back -/

/-- The keys under an event node. -/
def millisKey : Text := "millis".toList
def scoreKey : Text := "score".toList
def schoolKey : Text := "school".toList
def urlKey : Text := "url".toList

/-- `getImage` hands out the image at hand and starts a download. -/
def FirebaseHelper.getImage (cloud : Cloud) (image : UIImage Img) (url : Text) :
    Option (UIImage Img) :=
  if cloud.accepts url then some image else none

/-- `init(snapshot:)`, with `image` at hand in the helper. -/
def Detection.ofSnapshot (cloud : Cloud) (currentUser : Option User) (image : UIImage Img)
    (snapshot : DataSnapshot) : Option (Detection Img) := do
  guard snapshot.isDictionary
  let score ← (← snapshot.get [scoreKey]).asFloat
  let school ← (← snapshot.get [schoolKey]).asString
  let millis ← (← snapshot.get [millisKey]).asDouble
  let dateFormatter : DateFormatter := {}
  let date : Date := ⟨millis⟩
  let imageURLString ← (← snapshot.get [urlKey]).asString
  let image ← FirebaseHelper.getImage cloud image imageURLString
  some
    { user := currentUser
      dateFormatter := dateFormatter
      date := date
      dateString := dateFormatter.string date
      millis := millis
      image := some image
      imageURLString := some imageURLString
      imageURL := URL.ofString imageURLString
      score := score
      school := school }

/-- What a node must hold to be read. -/
structure Readable (cloud : Cloud) (s : DataSnapshot) (millis : ℚ) (score : Float32)
    (school url : Text) : Prop where
  accepted : cloud.accepts url
  millis : s.get [millisKey] = some (.num millis)
  score : s.get [scoreKey] = some (.num score.value)
  school : s.get [schoolKey] = some (.text school)
  url : s.get [urlKey] = some (.text url)

variable {cloud : Cloud} {s : DataSnapshot}

/-- **A node with all its fields is read**, its date as the empty text. -/
theorem Readable.ofSnapshot {millis : ℚ} {score : Float32} {school url : Text}
    (h : Readable cloud s millis score school url) (currentUser : Option User)
    (image : UIImage Img) :
    Detection.ofSnapshot cloud currentUser image s = some
      { user := currentUser
        dateFormatter := {}
        date := ⟨millis⟩
        dateString := []
        millis := millis
        image := some image
        imageURLString := some url
        imageURL := URL.ofString url
        score := score
        school := school } := by
  have hdict := DataSnapshot.isDictionary_of_get h.millis
  simp [Detection.ofSnapshot, FirebaseHelper.getImage, h.millis, h.score, h.school, h.url,
    h.accepted, hdict, Value.asDouble, Value.asFloat_eq_some.mpr rfl, Value.asString,
    DateFormatter.string_of_dateFormat_eq_nil]

/-- Every other node traps. -/
theorem Detection.ofSnapshot_isSome_iff (currentUser : Option User) (image : UIImage Img) :
    (Detection.ofSnapshot cloud currentUser image s).isSome ↔
      ∃ millis score school url, Readable cloud s millis score school url := by
  refine ⟨fun h => ?_, fun ⟨millis, score, school, url, h⟩ => by simp [h.ofSnapshot]⟩
  obtain ⟨d, hd⟩ := Option.isSome_iff_exists.mp h
  simp only [Detection.ofSnapshot, Option.bind_eq_bind, Option.bind_eq_some_iff,
    Value.asDouble_eq_some, Value.asFloat_eq_some, Value.asString_eq_some,
    FirebaseHelper.getImage] at hd
  obtain ⟨-, -, -, hscore, score, rfl, -, hschool, school, rfl, -, hmillis, millis, rfl, -,
    hurl, url, rfl, i, hi, -⟩ := hd
  split at hi
  · rename_i hacc
    exact ⟨millis, score, school, url, hacc, hmillis, hscore, hschool, hurl⟩
  · simp at hi

/-- A detection that was read has the image at hand, and no date string. -/
lemma Detection.of_ofSnapshot {currentUser : Option User} {image : UIImage Img}
    {d : Detection Img} (h : Detection.ofSnapshot cloud currentUser image s = some d) :
    d.image = some image ∧ d.dateString = [] := by
  obtain ⟨millis, score, school, url, hread⟩ :=
    (Detection.ofSnapshot_isSome_iff currentUser image).mp (by rw [h]; rfl)
  obtain rfl := Option.some.inj ((hread.ofSnapshot currentUser image).symm.trans h)
  exact ⟨rfl, rfl⟩

end Solta
