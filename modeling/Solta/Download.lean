import Solta.Detection
import Solta.Lib.Run

/-!
Downloads of pictures.

All calls of `getImage` share the field `image`. A call starts a download, which writes the
field when it succeeds, and returns the field as it is at the call: the picture of whichever
download succeeded last, or none.
-/

namespace Solta.Download

open Lib Lib.Run

variable {Img : Type} (cloud : Cloud) (stored : Text → Option Img)

inductive Status
  | pending
  | succeeded
  | failed
  deriving DecidableEq

/-- A call with what it returned, the row it was made for, the url of the download that had
succeeded last, and what becomes of its own download. -/
structure Call (Img : Type) where
  url : Text
  returned : UIImage Img
  row : Option (Detection Img)
  latest : Option Text
  status : Status

/-- The field, the calls so far and the url of the download that succeeded last. -/
structure Helper (Img : Type) where
  image : UIImage Img
  calls : List (Call Img)
  latest : Option Text

def init : Helper Img := ⟨.blank, [], none⟩

/-- The call returns `returned`, and its download is under way. -/
def Helper.start (h : Helper Img) (url : Text) (returned : UIImage Img)
    (row : Option (Detection Img)) : Helper Img :=
  { h with calls := h.calls ++ [⟨url, returned, row, h.latest, .pending⟩] }

def getImage (h : Helper Img) (url : Text) : Option (Helper Img) :=
  (FirebaseHelper.getImage cloud h.image url).map fun image => h.start url image none

/-- `Detection(snapshot:)`, which calls `getImage`. -/
def decode (h : Helper Img) (currentUser : Option User) (snapshot : DataSnapshot) :
    Option (Helper Img) := do
  let d ← Detection.ofSnapshot cloud currentUser h.image snapshot
  let url ← d.imageURLString
  let image ← d.image
  some (h.start url image (some d))

/-- The call `i`, if its download is under way. -/
def pendingCall (h : Helper Img) (i : ℕ) : Option (Call Img) :=
  h.calls[i]?.filter fun c => c.status = .pending

/-- The completion of a download with the data of the object. -/
def succeed (h : Helper Img) (i : ℕ) : Helper Img :=
  match pendingCall h i with
  | none => h
  | some c =>
    match stored c.url with
    | none => h
    | some img =>
      { image := .picture img
        calls := h.calls.set i { c with status := .succeeded }
        latest := some c.url }

/-- The completion of a download with an error. -/
def fail (h : Helper Img) (i : ℕ) : Helper Img :=
  match pendingCall h i with
  | none => h
  | some c => { h with calls := h.calls.set i { c with status := .failed } }

inductive Act
  | getImage (url : Text)
  | decode (currentUser : Option User) (snapshot : DataSnapshot)
  | succeed (i : ℕ)
  | fail (i : ℕ)

def step (h : Helper Img) : Act → Option (Helper Img)
  | .getImage url => getImage cloud h url
  | .decode currentUser snapshot => decode cloud h currentUser snapshot
  | .succeed i => some (succeed stored h i)
  | .fail i => some (fail h i)

/-! ### What the field holds -/

def IsStored (url : Text) (image : UIImage Img) : Prop :=
  ∃ i, stored url = some i ∧ image = .picture i

/-- The field is the picture of the download that succeeded last. -/
def Holds (latest : Option Text) (image : UIImage Img) : Prop :=
  match latest with
  | none => image = .blank
  | some url => IsStored stored url image

/-- The row of a call has the url and the picture of the call. -/
def RowOf (c : Call Img) : Prop :=
  ∀ d, c.row = some d → d.imageURLString = some c.url ∧ d.image = some c.returned

structure Good (h : Helper Img) : Prop where
  field : Holds stored h.latest h.image
  calls : ∀ c ∈ h.calls, Holds stored c.latest c.returned ∧ RowOf c
  none_before : h.latest = none → ∀ c ∈ h.calls, c.latest = none ∧ c.status ≠ .succeeded
  first : h.latest ≠ none → ∃ c ∈ h.calls, c.latest = none ∧ c.status = .succeeded

variable {cloud stored}

lemma good_init : Good stored (init : Helper Img) := by
  refine ⟨rfl, ?_, ?_, ?_⟩ <;> simp [init]

lemma Good.start {h : Helper Img} (hg : Good stored h) {url : Text}
    {row : Option (Detection Img)}
    (hrow : ∀ d, row = some d → d.imageURLString = some url ∧ d.image = some h.image) :
    Good stored (h.start url h.image row) := by
  refine ⟨hg.field, fun c hc => ?_, fun hnone c hc => ?_, fun hsome => ?_⟩
  · rcases List.mem_append.mp hc with hc | hc
    · exact hg.calls c hc
    · obtain rfl := List.mem_singleton.mp hc
      exact ⟨hg.field, hrow⟩
  · rcases List.mem_append.mp hc with hc | hc
    · exact hg.none_before hnone c hc
    · obtain rfl := List.mem_singleton.mp hc
      exact ⟨hnone, by simp⟩
  · obtain ⟨c, hc, h1, h2⟩ := hg.first hsome
    exact ⟨c, List.mem_append_left _ hc, h1, h2⟩

lemma Good.getImage {h t : Helper Img} (hg : Good stored h) {url : Text}
    (ht : getImage cloud h url = some t) : Good stored t := by
  obtain ⟨image, himage, rfl⟩ := Option.map_eq_some_iff.mp ht
  unfold FirebaseHelper.getImage at himage
  split at himage
  · obtain rfl := Option.some.inj himage
    exact hg.start (by simp)
  · simp at himage

lemma Good.decode {h t : Helper Img} (hg : Good stored h) {currentUser : Option User}
    {snapshot : DataSnapshot} (ht : decode cloud h currentUser snapshot = some t) :
    Good stored t := by
  obtain ⟨d, hd, ht⟩ := Option.bind_eq_some_iff.mp ht
  obtain ⟨url, hurl, ht⟩ := Option.bind_eq_some_iff.mp ht
  obtain ⟨image, himage, ht⟩ := Option.bind_eq_some_iff.mp ht
  obtain rfl : h.image = image :=
    Option.some.inj ((Detection.of_ofSnapshot hd).1.symm.trans himage)
  obtain rfl := Option.some.inj ht
  refine hg.start fun e he => ?_
  obtain rfl := Option.some.inj he
  exact ⟨hurl, himage⟩

lemma pendingCall_eq_some {h : Helper Img} {i : ℕ} {c : Call Img}
    (hc : pendingCall h i = some c) : h.calls[i]? = some c ∧ c.status = .pending := by
  simpa [pendingCall, Option.filter_eq_some_iff] using hc

/-- A download that has succeeded is not under way. -/
lemma mem_set_of_succeeded {h : Helper Img} {i : ℕ} {c v x : Call Img}
    (hc : pendingCall h i = some c) (hx : x ∈ h.calls) (hs : x.status = .succeeded) :
    x ∈ h.calls.set i v := by
  obtain ⟨hget, hpend⟩ := pendingCall_eq_some hc
  obtain ⟨j, hj⟩ := List.mem_iff_getElem?.mp hx
  have hij : i ≠ j := by
    rintro rfl
    obtain rfl : c = x := Option.some.inj (hget.symm.trans hj)
    simp [hpend] at hs
  refine List.mem_of_getElem? (i := j) ?_
  rw [List.getElem?_set_ne hij, hj]

/-- The first download to succeed is of a call that returned no picture. -/
lemma Good.succeed {h : Helper Img} (hg : Good stored h) (i : ℕ) :
    Good stored (succeed stored h i) := by
  unfold Download.succeed
  split
  · exact hg
  rename_i c hc
  split
  · exact hg
  rename_i img himg
  obtain ⟨hget, -⟩ := pendingCall_eq_some hc
  have hmem := List.mem_of_getElem? hget
  have hi : i < h.calls.length := (List.getElem?_eq_some_iff.mp hget).1
  refine ⟨⟨img, himg, rfl⟩, fun x hx => ?_, by simp, fun _ => ?_⟩
  · rcases List.mem_or_eq_of_mem_set hx with hx | rfl
    · exact hg.calls x hx
    · exact hg.calls c hmem
  · by_cases hlatest : h.latest = none
    · exact ⟨{ c with status := .succeeded }, List.mem_set hi _,
        (hg.none_before hlatest c hmem).1, rfl⟩
    · obtain ⟨x, hx, h1, h2⟩ := hg.first hlatest
      exact ⟨x, mem_set_of_succeeded hc hx h2, h1, h2⟩

lemma Good.fail {h : Helper Img} (hg : Good stored h) (i : ℕ) : Good stored (fail h i) := by
  unfold Download.fail
  split
  · exact hg
  rename_i c hc
  obtain ⟨hget, -⟩ := pendingCall_eq_some hc
  have hmem := List.mem_of_getElem? hget
  refine ⟨hg.field, fun x hx => ?_, fun hnone x hx => ?_, fun hsome => ?_⟩
  · rcases List.mem_or_eq_of_mem_set hx with hx | rfl
    · exact hg.calls x hx
    · exact hg.calls c hmem
  · rcases List.mem_or_eq_of_mem_set hx with hx | rfl
    · exact hg.none_before hnone x hx
    · exact ⟨(hg.none_before hnone c hmem).1, by simp⟩
  · obtain ⟨x, hx, h1, h2⟩ := hg.first hsome
    exact ⟨x, mem_set_of_succeeded hc hx h2, h1, h2⟩

lemma Good.step {h t : Helper Img} (hg : Good stored h) {a : Act}
    (ht : step cloud stored h a = some t) : Good stored t := by
  cases a with
  | getImage url => exact hg.getImage ht
  | decode currentUser snapshot => exact hg.decode ht
  | succeed i =>
    obtain rfl := Option.some.inj ht
    exact hg.succeed i
  | fail i =>
    obtain rfl := Option.some.inj ht
    exact hg.fail i

theorem good_of_run {as : List Act} {h : Helper Img}
    (hrun : run (step cloud stored) init as = some h) : Good stored h :=
  run_inv (fun _ _ _ hg ht => hg.step ht) good_init hrun

/-! ### Rows and their pictures -/

/-- A call whose download succeeds returns the picture stored at its url, and no call returns
a picture that is stored only elsewhere. -/
structure Own (stored : Text → Option Img) (c : Call Img) : Prop where
  own : c.status = .succeeded → IsStored stored c.url c.returned
  foreign : ∀ url, url ≠ c.url → IsStored stored url c.returned →
    IsStored stored c.url c.returned

/-- The download that had succeeded last was of the call's own picture, or there was none and
the call's own does not succeed. -/
def Timely (stored : Text → Option Img) (c : Call Img) : Prop :=
  match c.latest with
  | none => c.status ≠ .succeeded
  | some url => stored url = stored c.url

lemma IsStored.picture {url : Text} {image : UIImage Img} (h : IsStored stored url image) :
    ∃ i, image = .picture i ∧ ∀ url', IsStored stored url' image ↔ stored url' = some i := by
  obtain ⟨i, -, rfl⟩ := h
  refine ⟨i, rfl, fun url' => ⟨fun ⟨j, hj, heq⟩ => ?_, fun hi => ⟨i, hi, rfl⟩⟩⟩
  obtain rfl : i = j := by simpa using heq
  exact hj

lemma own_iff_timely {c : Call Img} (h : Holds stored c.latest c.returned) :
    Own stored c ↔ Timely stored c := by
  unfold Timely
  cases hlatest : c.latest with
  | none =>
    have hblank : c.returned = .blank := by simpa [Holds, hlatest] using h
    have hnot : ∀ url, ¬ IsStored stored url c.returned := by
      rintro url ⟨i, -, hi⟩
      simp [hblank] at hi
    exact ⟨fun hown hs => hnot _ (hown.own hs), fun hs => ⟨fun hs' => absurd hs' hs,
      fun url _ hurl => absurd hurl (hnot url)⟩⟩
  | some url =>
    have hurl : IsStored stored url c.returned := by simpa [Holds, hlatest] using h
    obtain ⟨i, -, hiff⟩ := hurl.picture
    have hi := (hiff url).mp hurl
    refine ⟨fun hown => ?_, fun heq => ?_⟩
    · by_cases hsame : url = c.url
      · rw [hsame]
      · exact hi.trans ((hiff _).mp (hown.foreign url hsame hurl)).symm
    · have hc : IsStored stored c.url c.returned := (hiff _).mpr (heq.symm.trans hi)
      exact ⟨fun _ => hc, fun _ _ _ => hc⟩

/-- **When a row shows its own picture**: exactly when the last download to succeed before the
row was read was of that picture, or there was none and the row's own does not succeed. -/
theorem own_iff_last_download {as : List Act} {h : Helper Img}
    (hrun : run (step cloud stored) init as = some h) {c : Call Img} (hc : c ∈ h.calls) :
    (Own stored c ↔ Timely stored c) ∧
      ∀ d, c.row = some d → d.imageURLString = some c.url ∧ d.image = some c.returned := by
  obtain ⟨hholds, hrow⟩ := (good_of_run hrun).calls c hc
  exact ⟨own_iff_timely hholds, hrow⟩

/-- **The first download always misses**: all calls return their own pictures only as long as
no download has succeeded. -/
theorem all_own_iff {as : List Act} {h : Helper Img}
    (hrun : run (step cloud stored) init as = some h) :
    (∀ c ∈ h.calls, Own stored c) ↔ h.latest = none := by
  have hg := good_of_run hrun
  refine ⟨fun hall => ?_, fun hnone c hc => ?_⟩
  · by_contra hsome
    obtain ⟨c, hc, hlatest, hs⟩ := hg.first hsome
    have htimely := (own_iff_timely (hg.calls c hc).1).mp (hall c hc)
    simp only [Timely, hlatest] at htimely
    exact htimely hs
  · obtain ⟨hlatest, hs⟩ := hg.none_before hnone c hc
    refine (own_iff_timely (hg.calls c hc).1).mpr ?_
    simp only [Timely, hlatest]
    exact hs

def firstURL : Text := Cloud.objectURL [users, "ada".toList, "40.jpg".toList]
def secondURL : Text := Cloud.objectURL [users, "ada".toList, "41.jpg".toList]

def twoPictures (url : Text) : Option ℕ :=
  if url = firstURL then some 1 else if url = secondURL then some 2 else none

/-- The picture of the first url arrives, then the second is asked for. -/
def firstThenSecond : List Act := [.getImage firstURL, .succeed 0, .getImage secondURL]

/-- A call after a download of the same picture returns it. -/
theorem own_second_time :
    ∃ h c, run (step Cloud.appBucket twoPictures) init
        [.getImage firstURL, .succeed 0, .getImage firstURL] = some h ∧ c ∈ h.calls ∧
      Own twoPictures c := by
  have hrun : (run (step Cloud.appBucket twoPictures) init
      [.getImage firstURL, .succeed 0, .getImage firstURL]).any fun h =>
        ∃ c ∈ h.calls, c.latest = some firstURL ∧ c.url = firstURL := by
    decide +kernel
  obtain ⟨h, hh, hfinal⟩ := (Option.any_eq_true _ _).mp hrun
  obtain ⟨c, hc, hlatest, hurl⟩ := of_decide_eq_true hfinal
  refine ⟨h, c, hh, hc, (own_iff_last_download hh hc).1.mpr ?_⟩
  simp only [Timely, hlatest, hurl]

/-- The second row shows the first picture. -/
theorem not_always_own :
    ¬ ∀ h, run (step Cloud.appBucket twoPictures) init firstThenSecond = some h →
      ∀ c ∈ h.calls, Own twoPictures c := by
  intro hall
  have hrun : (run (step Cloud.appBucket twoPictures) init firstThenSecond).any fun h =>
      ∃ c ∈ h.calls, c.url = secondURL ∧ c.returned = .picture 1 := by
    decide +kernel
  obtain ⟨h, hh, hfinal⟩ := (Option.any_eq_true _ _).mp hrun
  obtain ⟨c, hc, hurl, hret⟩ := of_decide_eq_true hfinal
  have hfirst : IsStored twoPictures firstURL c.returned := ⟨1, by decide, hret⟩
  have hne : firstURL ≠ c.url := by
    rw [hurl]
    decide
  obtain ⟨i, hi, hpic⟩ := (hall h hh c hc).foreign firstURL hne hfirst
  rw [hurl] at hi
  rw [hret] at hpic
  obtain rfl : 1 = i := by simpa using hpic
  exact absurd hi (by decide)

end Solta.Download
