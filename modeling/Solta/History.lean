import Solta.Detection
import Solta.Lib.Run

/-!
The history and the observer that fills it.

`populateCells` registers an observer on the user's node. The list `eventsFromFirebase` is
made when the observer is registered, outside its closure, so all callbacks add to one list.
-/

namespace Solta.HistoryVC

open Lib Lib.Run

variable {Img : Type} (cloud : Cloud)

/-- The list the closure has captured, and the list on the screen. -/
structure History (Img : Type) where
  eventsFromFirebase : List (Detection Img)
  detections : List (Detection Img)

/-- A value event, with the user and the picture of the helper at its time. -/
structure Callback (Img : Type) where
  currentUser : Option User
  image : UIImage Img
  snapShot : DataSnapshot

/-- The node the observer is registered on, and what it starts from. -/
def populateCells (user : Option User) : Option (Path × History Img) := do
  let user ← user
  let userRef ← FirebaseHelper.getUserRef user
  let _userStorageRef ← FirebaseHelper.getStorageRef user
  some (userRef, ⟨[], []⟩)

/-- `Detection(snapshot: rest)` in the callback `c`. -/
def Callback.detection (c : Callback Img) (rest : DataSnapshot) : Option (Detection Img) :=
  Detection.ofSnapshot cloud c.currentUser c.image rest

/-- The body of the loop over the children. -/
def visit (c : Callback Img) (eventsFromFirebase : List (Detection Img)) (rest : DataSnapshot) :
    Option (List (Detection Img)) :=
  if rest.hasChild urlKey then (c.detection cloud rest).map fun d => eventsFromFirebase ++ [d]
  else some eventsFromFirebase

def observer (h : History Img) (c : Callback Img) : Option (History Img) :=
  if c.snapShot.Exists then
    (c.snapShot.allObjects.foldlM (visit cloud c) h.eventsFromFirebase).map fun events =>
      ⟨events, events⟩
  else some h

/-! ### One callback -/

/-- The children that are to be shown. -/
def Callback.listed (c : Callback Img) : List DataSnapshot :=
  c.snapShot.allObjects.filter fun rest => rest.hasChild urlKey

/-- What the latest snapshot has to show, `none` when reading a child traps. -/
def Callback.rows (c : Callback Img) : Option (List (Detection Img)) :=
  c.listed.mapM (c.detection cloud)

lemma listed_of_not_exists {c : Callback Img} (h : ¬ c.snapShot.Exists) : c.listed = [] := by
  have hchild : c.snapShot.children = [] := by
    have : c.snapShot.entries = [] := not_not.mp h
    simp [PathStore.children, this]
  have hkeys : c.snapShot.childKeys = [] := by
    have hperm := c.snapShot.childKeys_perm
    rwa [hchild, List.perm_nil] at hperm
  simp [Callback.listed, DataSnapshot.allObjects, hkeys]

lemma foldlM_visit (c : Callback Img) (rests : List DataSnapshot)
    (events : List (Detection Img)) :
    rests.foldlM (visit cloud c) events =
      ((rests.filter fun rest => rest.hasChild urlKey).mapM (c.detection cloud)).map
        (events ++ ·) := by
  induction rests generalizing events with
  | nil => simp
  | cons rest rests ih =>
    rw [List.foldlM_cons, List.filter_cons]
    by_cases hurl : rest.hasChild urlKey
    · rw [visit, if_pos hurl, if_pos hurl, List.mapM_cons]
      cases c.detection cloud rest with
      | none => rfl
      | some d =>
        simp only [Option.map_some, Option.bind_eq_bind, Option.bind_some, ih]
        cases (rests.filter fun rest => rest.hasChild urlKey).mapM (c.detection cloud) with
        | none => rfl
        | some ds => simp
    · rw [visit, if_neg hurl, if_neg hurl]
      exact ih events

variable {cloud}

/-- **One callback** adds what its snapshot has to show to what the earlier ones had. -/
lemma observer_eq {h : History Img} (hh : h.detections = h.eventsFromFirebase)
    (c : Callback Img) :
    observer cloud h c = (c.rows cloud).map fun rows =>
      ⟨h.eventsFromFirebase ++ rows, h.eventsFromFirebase ++ rows⟩ := by
  unfold observer Callback.rows
  split
  · rw [foldlM_visit, Option.map_map]
    rfl
  · rename_i hex
    obtain ⟨events, detections⟩ := h
    obtain rfl : detections = events := hh
    simp [listed_of_not_exists hex]

/-- A callback traps only in reading a child. -/
lemma observer_isSome (h : History Img) {c : Callback Img} (hc : (c.rows cloud).isSome) :
    (observer cloud h c).isSome := by
  unfold observer
  split
  · rw [foldlM_visit, Option.isSome_map, Option.isSome_map]
    exact hc
  · rfl

lemma rows_of_listed_eq_nil {c : Callback Img} (h : c.listed = []) : c.rows cloud = some [] := by
  simp [Callback.rows, h]

lemma listed_of_rows_eq_nil {c : Callback Img} (h : c.rows cloud = some []) : c.listed = [] := by
  cases hl : c.listed with
  | nil => rfl
  | cons rest rests =>
    rw [Callback.rows, hl, List.mapM_cons] at h
    cases hd : c.detection cloud rest <;> simp [hd, Option.bind_eq_some_iff] at h

lemma rows_isSome_iff {c : Callback Img} :
    (c.rows cloud).isSome ↔ ∀ rest ∈ c.listed, ∃ millis score school url,
      Readable cloud rest millis score school url := by
  unfold Callback.rows
  induction c.listed with
  | nil => simp
  | cons rest rests ih =>
    rw [List.forall_mem_cons, ← ih, List.mapM_cons,
      ← Detection.ofSnapshot_isSome_iff c.currentUser c.image]
    unfold Callback.detection
    cases Detection.ofSnapshot cloud c.currentUser c.image rest with
    | none => simp
    | some d => cases rests.mapM (Detection.ofSnapshot cloud c.currentUser c.image) <;> simp

/-! ### All callbacks of an observer -/

/-- The screen and the captured list agree between callbacks. -/
lemma run_agree {h t : History Img} {cs : List (Callback Img)}
    (hh : h.detections = h.eventsFromFirebase) (ht : run (observer cloud) h cs = some t) :
    t.detections = t.eventsFromFirebase := by
  refine run_inv (I := fun h => h.detections = h.eventsFromFirebase) ?_ hh ht
  intro h c t hh hstep
  rw [observer_eq hh] at hstep
  obtain ⟨rows, -, rfl⟩ := Option.map_eq_some_iff.mp hstep
  rfl

/-- Callbacks with nothing to show change nothing. -/
lemma run_of_listed_eq_nil {cs : List (Callback Img)} (hcs : ∀ c ∈ cs, c.listed = []) :
    run (observer cloud) ⟨[], []⟩ cs = some ⟨[], []⟩ := by
  induction cs with
  | nil => rfl
  | cons c cs ih =>
    rw [run_cons, observer_eq rfl, rows_of_listed_eq_nil (hcs c (by simp))]
    exact ih fun c' hc' => hcs c' (by simp [hc'])

/-- After every callback the screen shows what its snapshot has to show: the children with a
picture, read anew, in their order and each once. -/
def Mirrors (cloud : Cloud) (cs : List (Callback Img)) : Prop :=
  ∀ bs c, bs ++ [c] <+: cs →
    ∃ t, run (observer cloud) ⟨[], []⟩ (bs ++ [c]) = some t ∧ c.rows cloud = some t.detections

/-- Two callbacks in a row are mirrored only if the first had nothing to show. -/
lemma Mirrors.listed_eq_nil {cs : List (Callback Img)} (h : Mirrors cloud cs)
    (bs : List (Callback Img)) (c c' : Callback Img) (hbs : bs ++ [c] ++ [c'] <+: cs) :
    c.listed = [] := by
  obtain ⟨t, ht, hrows⟩ := h bs c ((List.prefix_append _ _).trans hbs)
  obtain ⟨u, hu, hrows'⟩ := h (bs ++ [c]) c' hbs
  have hagree := run_agree rfl ht
  rw [run_snoc, ht, Option.bind_some, observer_eq hagree, hrows', Option.map_some] at hu
  have hdet : t.eventsFromFirebase ++ u.detections = u.detections :=
    congrArg History.detections (Option.some.inj hu)
  have hnil : t.eventsFromFirebase = [] := List.self_eq_append_left.mp hdet.symm
  rw [hagree, hnil] at hrows
  exact listed_of_rows_eq_nil hrows

/-- **When the history mirrors the database**: exactly when only the last snapshot has
children with a picture, and those are complete. -/
theorem mirrors_iff (cloud : Cloud) (cs : List (Callback Img)) :
    Mirrors cloud cs ↔
      (∀ c ∈ cs.dropLast, c.listed = []) ∧
      ∀ c ∈ cs.getLast?, ∀ rest ∈ c.listed, ∃ millis score school url,
        Readable cloud rest millis score school url := by
  rcases List.eq_nil_or_concat cs with rfl | ⟨ds, l, rfl⟩
  · simp [Mirrors]
  simp only [List.concat_eq_append, List.dropLast_concat, List.getLast?_concat,
    Option.mem_def, Option.some.injEq, forall_eq']
  rw [← rows_isSome_iff]
  refine ⟨fun h => ⟨fun c hc => ?_, ?_⟩, fun ⟨hds, hl⟩ bs c hbs => ?_⟩
  · obtain ⟨as, es, rfl⟩ := List.append_of_mem hc
    obtain ⟨c', fs, hfs⟩ : ∃ c' fs, es ++ [l] = c' :: fs := by
      cases es with
      | nil => exact ⟨l, [], rfl⟩
      | cons e es => exact ⟨e, es ++ [l], rfl⟩
    refine h.listed_eq_nil as c c' ⟨fs, ?_⟩
    simp [hfs]
  · obtain ⟨t, -, ht⟩ := h ds l (List.prefix_refl _)
    simp [ht]
  · rcases List.prefix_concat_iff.mp (by simpa using hbs) with heq | hpre
    · obtain ⟨rfl, hc⟩ := List.append_inj' heq rfl
      obtain rfl : c = l := by simpa using hc
      obtain ⟨rows, hrows⟩ := Option.isSome_iff_exists.mp hl
      refine ⟨⟨rows, rows⟩, ?_, hrows⟩
      rw [run_snoc, run_of_listed_eq_nil hds, Option.bind_some, observer_eq rfl, hrows]
      rfl
    · have hnil : ∀ c' ∈ bs ++ [c], c'.listed = [] := fun c' hc' => hds c' (hpre.subset hc')
      exact ⟨⟨[], []⟩, run_of_listed_eq_nil hnil, rows_of_listed_eq_nil (hnil c (by simp))⟩

/-- A node with one complete event. -/
def oneEvent : DataSnapshot :=
  let key := clockFormatter.string ⟨1528300800⟩
  (((PathStore.empty.set [key, millisKey] (.num 1528300800)).set [key, scoreKey] (.num 40)).set
    [key, schoolKey] (.text "Craig Kielburger Secondary School".toList)).set
      [key, urlKey] (.text (Cloud.objectURL [users, "ada".toList, key, "40.jpg".toList]))

/-- Two snapshots of one event show it twice. -/
theorem not_always_mirrors :
    ¬ Mirrors Cloud.appBucket
      [(⟨some ⟨some "ada@x.ca".toList⟩, .blank, oneEvent⟩ : Callback ℕ),
        ⟨some ⟨some "ada@x.ca".toList⟩, .blank, oneEvent⟩] := by
  intro h
  have hnil := h.listed_eq_nil [] _ _ (List.prefix_refl _)
  revert hnil
  decide +kernel

end Solta.HistoryVC
