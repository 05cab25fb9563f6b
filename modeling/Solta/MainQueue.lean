import Solta.Imaging
import Solta.Lib.Run

/-!
The closures `DetectionVC` posts to the main queue.

The frame callback runs on its own queue. For an event it stores the frame's picture in
`cgimage`, which all frames share, and posts a closure that has captured only the number of
bright pixels. The closure reads `cgimage` when it starts. The two queues interleave
statement by statement: a frame may be handled between the storing of an earlier picture
and the start of the closure that is to show it.
-/

namespace Solta.MainQueue

open Lib.Run Solta.Imaging

variable {Img : Type}

/-- An event: the picture of the frame that triggered it and its bright pixels. -/
structure Event (Img : Type) where
  image : Img
  numBrightPixels : ℕ
  deriving DecidableEq

/-- A detection handed to `addDetection`, with the event its closure was posted for and the
value of `intensityThreshhold` the closure read. -/
structure Recorded (Img : Type) where
  event : Event Img
  threshhold : ℚ
  image : Img
  score : Float32

/-- Both queues. A closure is known by the event it was posted for; it has captured the
`numBrightPixels` of that event and nothing else. -/
structure St (Img : Type) where
  detector : Detector Img
  /-- the closure of the frame at hand, its picture stored and itself not yet posted -/
  leaving : Option (Event Img)
  mainQueue : List (Event Img)
  /-- the closure on the main thread, past its first statement -/
  shown : Option (Event Img)
  viewImage : Img
  recorded : List (Recorded Img)
  events : List (Event Img)

inductive Act (Img : Type)
  | frame (now : ℚ) (b : PixelBuffer Img)
  | post
  | start
  | finish
  | tick (now : ℚ)

def init (started : ℚ) (lastImage viewImage : Img) : St Img :=
  ⟨DetectionVC.initial started lastImage, none, [], none, viewImage, [], []⟩

/-- The frame callback up to the statement that posts the closure; the frames are handled
one at a time. -/
def frame (s : St Img) (now : ℚ) (b : PixelBuffer Img) : St Img :=
  if s.leaving.isNone then
    let c := DetectionVC.captureOutput s.detector now b
    match c.handed with
    | none => { s with detector := c.detector }
    | some n =>
      { s with
        detector := c.detector
        leaving := some ⟨b.image, n⟩
        events := s.events ++ [⟨b.image, n⟩] }
  else s

/-- `DispatchQueue.main.async`. -/
def post (s : St Img) : St Img :=
  { s with leaving := none, mainQueue := s.mainQueue ++ s.leaving.toList }

/-- The first statement of the next closure puts `cgimage` on the view. -/
def start (s : St Img) : St Img :=
  match s.shown, s.mainQueue with
  | none, e :: rest =>
    { s with mainQueue := rest, shown := some e, viewImage := s.detector.cgimage }
  | _, _ => s

/-- The rest of the closure builds a detection of the view's picture and adds it. -/
def finish (s : St Img) : St Img :=
  match s.shown with
  | some e =>
    let score := scoreOf e.numBrightPixels s.detector.intensityThreshhold
    { s with
      shown := none
      recorded := s.recorded ++ [⟨e, s.detector.intensityThreshhold, s.viewImage, score⟩] }
  | none => s

/-- The timer fires on the main thread, between two closures. -/
def tick (s : St Img) (now : ℚ) : St Img :=
  if s.shown.isNone then { s with detector := updateThreshold now s.detector } else s

/-- One action; an action that cannot happen changes nothing. -/
def next (s : St Img) : Act Img → St Img
  | .frame now b => frame s now b
  | .post => post s
  | .start => start s
  | .finish => finish s
  | .tick now => tick s now

/-- No action traps. -/
def step (s : St Img) (a : Act Img) : Option (St Img) := some (next s a)

/-- Nothing is left to post, to start or to record. -/
def Drained (s : St Img) : Prop := s.leaving = none ∧ s.mainQueue = [] ∧ s.shown = none

/-- The detections recorded so far are the first events, in order and each once, each with
its own picture and its own bright pixels; all events, when the queues are drained. -/
structure OwnPictures (s : St Img) : Prop where
  order : s.recorded.map Recorded.event <+: s.events
  image : ∀ r ∈ s.recorded, r.image = r.event.image
  score : ∀ r ∈ s.recorded, r.score = scoreOf r.event.numBrightPixels r.threshhold
  drained : Drained s → s.recorded.map Recorded.event = s.events

/-- A closure starts only while no later event has been handled. -/
def Prompt (s : St Img) : Act Img → Prop
  | .start => s.mainQueue.length + s.leaving.toList.length ≤ 1
  | _ => True

instance (s : St Img) : ∀ a, Decidable (Prompt s a)
  | .start => inferInstanceAs (Decidable (_ ≤ _))
  | .frame _ _ | .post | .finish | .tick _ => isTrue trivial

/-! ### What every step keeps -/

/-- The first-in first-out order: recorded, running, waiting and leaving closures are the
events in order. The shared picture is that of the last event. -/
structure Fifo (s : St Img) : Prop where
  order : s.recorded.map Recorded.event ++ s.shown.toList ++ s.mainQueue ++ s.leaving.toList =
    s.events
  latest : ∀ e ∈ s.events.getLast?, s.detector.cgimage = e.image
  score : ∀ r ∈ s.recorded, r.score = scoreOf r.event.numBrightPixels r.threshhold

/-- With prompt closures every picture taken so far is the right one. -/
structure Good (s : St Img) : Prop extends Fifo s where
  running : ∀ e ∈ s.shown, s.viewImage = e.image
  image : ∀ r ∈ s.recorded, r.image = r.event.image

lemma captureOutput_cgimage (d : Detector Img) (now : ℚ) (b : PixelBuffer Img) :
    (DetectionVC.captureOutput d now b).detector.cgimage =
      if (DetectionVC.captureOutput d now b).handed.isSome then b.image else d.cgimage := by
  rw [DetectionVC.captureOutput_eq]
  split <;> simp

lemma updateThreshold_cgimage (now : ℚ) (d : Detector Img) :
    (updateThreshold now d).cgimage = d.cgimage := by
  obtain ⟨table, h⟩ := updateThreshold_eq now d
  rw [h]

lemma fifo_init (started : ℚ) (lastImage viewImage : Img) :
    Fifo (init started lastImage viewImage) :=
  ⟨rfl, by simp [init], by simp [init]⟩

lemma fifo_frame {s : St Img} (hs : Fifo s) (now : ℚ) (b : PixelBuffer Img) :
    Fifo (frame s now b) := by
  unfold frame
  split
  · next hl =>
    have hcg := captureOutput_cgimage s.detector now b
    have horder := hs.order
    rw [Option.isNone_iff_eq_none.mp hl, Option.toList_none, List.append_nil] at horder
    dsimp only
    split
    · next hnone =>
      rw [hnone] at hcg
      refine ⟨hs.order, fun e he => ?_, hs.score⟩
      rw [hcg]
      exact hs.latest e he
    · next n hn =>
      rw [hn] at hcg
      refine ⟨?_, fun e he => ?_, hs.score⟩
      · rw [← horder]
        rfl
      · have : e = ⟨b.image, n⟩ := by simpa using he.symm
        rw [hcg, this]
        rfl
  · exact hs

lemma fifo_post {s : St Img} (hs : Fifo s) : Fifo (post s) := by
  refine ⟨?_, hs.latest, hs.score⟩
  have horder := hs.order
  unfold post
  dsimp only
  rw [← horder, Option.toList_none, List.append_nil, List.append_assoc _ s.mainQueue]

lemma fifo_start {s : St Img} (hs : Fifo s) : Fifo (start s) := by
  unfold start
  split
  · next e rest hshown hqueue =>
    refine ⟨?_, hs.latest, hs.score⟩
    rw [← hs.order, hshown, hqueue]
    simp
  · exact hs

lemma fifo_finish {s : St Img} (hs : Fifo s) : Fifo (finish s) := by
  unfold finish
  split
  · next e hshown =>
    refine ⟨?_, hs.latest, fun r hr => ?_⟩
    · rw [← hs.order, hshown]
      simp
    · rcases List.mem_append.mp hr with hr | hr
      · exact hs.score r hr
      · rw [List.mem_singleton.mp hr]
  · exact hs

lemma fifo_tick {s : St Img} (hs : Fifo s) (now : ℚ) : Fifo (tick s now) := by
  unfold tick
  split
  · refine ⟨hs.order, fun e he => ?_, hs.score⟩
    rw [updateThreshold_cgimage]
    exact hs.latest e he
  · exact hs

/-- **One step** keeps the order of the closures. -/
theorem fifo_next {s : St Img} (hs : Fifo s) (a : Act Img) : Fifo (next s a) := by
  cases a with
  | frame now b => exact fifo_frame hs now b
  | post => exact fifo_post hs
  | start => exact fifo_start hs
  | finish => exact fifo_finish hs
  | tick now => exact fifo_tick hs now

/-- A closure that starts while it is the only one waiting was posted for the last event. -/
lemma last_of_prompt {s : St Img} (hs : Fifo s) {e : Event Img} {rest : List (Event Img)}
    (hqueue : s.mainQueue = e :: rest) (hp : Prompt s .start) : s.events.getLast? = some e := by
  unfold Prompt at hp
  rw [hqueue, List.length_cons] at hp
  have hrest : rest = [] := List.eq_nil_of_length_eq_zero (by omega)
  have hleaving : s.leaving.toList = [] := List.eq_nil_of_length_eq_zero (by omega)
  rw [← hs.order, hqueue, hrest, hleaving]
  simp

/-- A frame touches neither the view nor what has been recorded. -/
lemma frame_same (s : St Img) (now : ℚ) (b : PixelBuffer Img) :
    (frame s now b).shown = s.shown ∧ (frame s now b).viewImage = s.viewImage ∧
      (frame s now b).recorded = s.recorded := by
  unfold frame
  dsimp only
  split
  · split <;> exact ⟨rfl, rfl, rfl⟩
  · exact ⟨rfl, rfl, rfl⟩

/-- **One prompt step** keeps every picture with its event. -/
theorem good_next {s : St Img} (hs : Good s) {a : Act Img} (hp : Prompt s a) :
    Good (next s a) := by
  have hf := fifo_next hs.toFifo a
  cases a with
  | frame now b =>
    obtain ⟨hsh, hv, hr⟩ := frame_same s now b
    refine ⟨hf, ?_, ?_⟩
    · show ∀ e ∈ (frame s now b).shown, (frame s now b).viewImage = e.image
      rw [hsh, hv]
      exact hs.running
    · show ∀ r ∈ (frame s now b).recorded, r.image = r.event.image
      rw [hr]
      exact hs.image
  | post => exact ⟨hf, hs.running, hs.image⟩
  | start =>
    -- the closure that starts is that of the last event, whose picture is in `cgimage`
    refine ⟨hf, ?_, ?_⟩ <;> unfold next start <;> dsimp only <;> split
    · next e rest hshown hqueue =>
      intro e' he'
      obtain rfl : e = e' := by simpa using he'
      exact hs.latest e (last_of_prompt hs.toFifo hqueue hp)
    · exact hs.running
    · exact hs.image
    · exact hs.image
  | finish =>
    refine ⟨hf, ?_, ?_⟩ <;> unfold next finish <;> dsimp only <;> split
    · simp
    · exact hs.running
    · next e hshown =>
      intro r hr
      rcases List.mem_append.mp hr with hr | hr
      · exact hs.image r hr
      · rw [List.mem_singleton.mp hr]
        exact hs.running e hshown
    · exact hs.image
  | tick now =>
    refine ⟨hf, ?_, ?_⟩ <;> unfold next tick <;> dsimp only <;> split
    · exact hs.running
    · exact hs.running
    · exact hs.image
    · exact hs.image

lemma Good.ownPictures {s : St Img} (hs : Good s) : OwnPictures s where
  order := by
    rw [← hs.order, List.append_assoc, List.append_assoc]
    exact List.prefix_append _ _
  image := hs.image
  score := hs.score
  drained := by
    rintro ⟨hl, hq, hsh⟩
    rw [← hs.order, hl, hq, hsh]
    simp

/-! ### Runs -/

/-- **The order survives every interleaving**: no event is lost, doubled or overtaken, and
every score is that of its own event. Only the picture can be another's. -/
theorem always_fifo (started : ℚ) (lastImage viewImage : Img) (as : List (Act Img)) :
    Always step Fifo (init started lastImage viewImage) as := by
  refine always_of_along (C := fun _ _ => True) ?_ (fifo_init started lastImage viewImage)
    (along_of_forall (fun _ _ => trivial) _ as)
  exact fun s a hs _ => ⟨next s a, rfl, fifo_next hs a⟩

/-- **Prompt closures record every event with its own picture.** -/
theorem own_pictures_of_prompt (started : ℚ) (lastImage viewImage : Img) (as : List (Act Img))
    (hp : Along step Prompt (init started lastImage viewImage) as) :
    Always step OwnPictures (init started lastImage viewImage) as := by
  refine Always.mono (fun _ => Good.ownPictures) (always_of_along (C := Prompt) ?_ ?_ hp)
  · exact fun s a hs ha => ⟨next s a, rfl, good_next hs ha⟩
  · exact ⟨fifo_init started lastImage viewImage, by simp [init], by simp [init]⟩

/-- A closure that runs before the next event records that event's picture. -/
theorem own_pictures_two_events :
    Always step OwnPictures (init 0 0 0)
      [.frame 1 (plain 7 2 2 2 255), .post, .start, .finish,
        .frame 2 (plain 8 2 2 2 255), .post, .start, .finish] :=
  own_pictures_of_prompt 0 0 0 _ (by decide +kernel)

/-- Two events are handled before the closure of the first one starts. -/
def late : List (Act ℕ) :=
  [.frame 1 (plain 7 2 2 2 255), .post, .frame 2 (plain 8 2 2 2 255), .post, .start, .finish]

/-- **The wrong picture.** The first detection is recorded with the second picture. -/
theorem not_always_own_pictures :
    ¬ ∀ (started : ℚ) (lastImage viewImage : ℕ) (as : List (Act ℕ)),
      Always step OwnPictures (init started lastImage viewImage) as := by
  intro h
  obtain ⟨t, ht, hown⟩ := always_iff.mp (h 0 0 0 late) late (List.prefix_refl _)
  have hrec : ((run step (init 0 0 0) late).map fun t =>
      t.recorded.map fun r => (r.event.image, r.image)) = some [(7, 8)] := by decide +kernel
  rw [ht, Option.map_some, Option.some.injEq] at hrec
  obtain ⟨r, hr, hpair⟩ : ∃ r ∈ t.recorded, (r.event.image, r.image) = (7, 8) :=
    List.mem_map.mp (hrec ▸ List.mem_singleton_self _)
  have himage := hown.image r hr
  rw [Prod.mk.injEq] at hpair
  omega

end Solta.MainQueue
