import Solta.FirebaseHelper

/-!
Where the contents of the database and of the storage come from.

Every leaf of the database is a field of a detection that was added, every object of the
storage its picture, and both lie at the place the references of that detection name.
-/

namespace Solta.FirebaseHelper

open Lib Lib.Run

variable {Img : Type} {cloud : Cloud}

/-! ### References of a built detection -/

lemma slash_notMem_imageName (n : ℤ) : '/' ∉ imageName n := by
  have hdigit : ¬ '/'.isDigit := by decide
  have hext : '/' ∉ ".jpg".toList := by decide
  unfold imageName
  rw [List.mem_append, List.mem_append]
  rintro ((h | h) | h)
  · split at h <;> simp at h
  · exact hdigit (Nat.isDigit_of_mem_toDigits (by omega) (by omega) h)
  · exact hext h

lemma imageName_ne_nil (n : ℤ) : imageName n ≠ [] := by
  simp [imageName]

/-- The node of an account's event. -/
def nodePath (d : Detection Img) : Path := users :: Lib.pieces '/' d.login ++ [d.getDate]

lemma eventRef_eq_some {d : Detection Img} (hd : d.Built) {p : Path} :
    eventRef d = some p ↔ FValidation.isValidPathString d.login ∧ p = nodePath d := by
  unfold eventRef nodePath
  rw [Option.bind_eq_some_iff]
  refine ⟨fun ⟨q, hq, hp⟩ => ?_, fun ⟨hv, hp⟩ => ?_⟩
  · obtain ⟨hv, rfl⟩ := userRef_eq_some.mp hq
    rw [DatabaseReference.child_key hd.getDate_isValidKey, Option.some.injEq] at hp
    exact ⟨hv, hp.symm⟩
  · refine ⟨_, userRef_eq_some.mpr ⟨hv, rfl⟩, ?_⟩
    rw [DatabaseReference.child_key hd.getDate_isValidKey, hp]

lemma imageStorageRef_eq_some {d : Detection Img} (hd : d.Built) {o : Path} :
    imageStorageRef d = some o ↔
      ∃ n, toInt32 d.score.value = some n ∧ o = nodePath d ++ [imageName n] := by
  unfold imageStorageRef eventStorageRef nodePath
  rw [Option.map_eq_some_iff, userStorageRef_eq,
    StorageReference.child_key hd.getDate_isValidKey]
  refine exists_congr fun n => and_congr_right fun _ => ?_
  unfold StorageReference.child
  rw [Pieces.pieces_eq_singleton (slash_notMem_imageName n) (imageName_ne_nil n), eq_comm]

/-! ### Steps -/

/-- Adding to the list of one device, be it the outbox or the detections. -/
lemma mem_outbox_append {α : Type} {outbox : ℕ → List α} {device dev : ℕ} {ws : List α} {x : α} :
    x ∈ Function.update outbox device (outbox device ++ ws) dev ↔
      x ∈ outbox dev ∨ (dev = device ∧ x ∈ ws) := by
  by_cases hdev : dev = device
  · subst hdev
    rw [Function.update_self, List.mem_append, and_iff_right rfl]
  · rw [Function.update_of_ne hdev, or_iff_left fun h => hdev h.1]

lemma mem_outbox_tail {outbox : ℕ → List (Write Img)} {device dev : ℕ} {xs : List (Write Img)}
    {x y : Write Img} (hout : outbox device = y :: xs)
    (hx : x ∈ Function.update outbox device xs dev) : x ∈ outbox dev := by
  by_cases hdev : dev = device
  · subst hdev
    rw [Function.update_self] at hx
    rw [hout]
    exact List.mem_cons_of_mem _ hx
  · rwa [Function.update_of_ne hdev] at hx

lemma addDetection_eq_some {w t : World Img} {device : ℕ} {d : Detection Img}
    (h : addDetection w device d = some t) :
    ∃ p us, eventRef d = some p ∧ putData device d p = some us ∧
      t = { w with
        uploads := w.uploads ++ us
        outbox := Function.update w.outbox device (w.outbox device ++ fieldWrites d p)
        issued := w.issued ++ fieldWrites d p
        detections := Function.update w.detections device (w.detections device ++ [d])
        added := w.added ++ [d] } := by
  unfold addDetection at h
  obtain ⟨p, hp, h⟩ := Option.bind_eq_some_iff.mp h
  obtain ⟨us, hus, h⟩ := Option.bind_eq_some_iff.mp h
  exact ⟨p, us, hp, hus, (Option.some.inj h).symm⟩

/-- What an upload was started with. -/
structure Upload.Fits (u : Upload Img) : Prop where
  event : FirebaseHelper.eventRef u.detection = some u.eventRef
  object : FirebaseHelper.imageStorageRef u.detection = some u.imageStorageRef
  image : u.detection.image = some (.picture u.data)

lemma mem_putData {device : ℕ} {d : Detection Img} {p : Path} {us : List (Upload Img)}
    (hp : eventRef d = some p) (h : putData device d p = some us) {u : Upload Img} (hu : u ∈ us) :
    u.detection = d ∧ u.device = device ∧ u.stage = .sent ∧ u.Fits := by
  unfold putData at h
  split at h
  · obtain rfl : [] = us := Option.some.inj h
    simp at hu
  · rename_i image himage
    obtain ⟨o, ho, h⟩ := Option.bind_eq_some_iff.mp h
    obtain ⟨data, hdata, h⟩ := Option.bind_eq_some_iff.mp h
    obtain rfl := Option.some.inj h
    obtain rfl := List.mem_singleton.mp hu
    refine ⟨rfl, rfl, rfl, hp, ho, ?_⟩
    rw [himage]
    cases image with
    | blank => simp [UIImageJPEGRepresentation] at hdata
    | picture i =>
      obtain rfl : i = data := Option.some.inj hdata
      rfl

/-- A detection with a picture is uploaded. -/
lemma exists_mem_putData {device : ℕ} {d : Detection Img} {p : Path} {us : List (Upload Img)}
    {image : UIImage Img} (h : putData device d p = some us) (himage : d.image = some image) :
    ∃ u ∈ us, u.detection = d := by
  unfold putData at h
  rw [himage] at h
  obtain ⟨o, -, h⟩ := Option.bind_eq_some_iff.mp h
  obtain ⟨data, -, h⟩ := Option.bind_eq_some_iff.mp h
  obtain rfl := Option.some.inj h
  exact ⟨_, List.mem_singleton_self _, rfl⟩

/-- An upload and a later state of it. -/
structure Upload.Same (u v : Upload Img) : Prop where
  detection : v.detection = u.detection
  device : v.device = u.device
  eventRef : v.eventRef = u.eventRef
  imageStorageRef : v.imageStorageRef = u.imageStorageRef
  data : v.data = u.data

lemma Upload.Same.refl (u : Upload Img) : u.Same u := ⟨rfl, rfl, rfl, rfl, rfl⟩

lemma Upload.Same.fits {u v : Upload Img} (h : u.Same v) (hu : u.Fits) : v.Fits := by
  refine ⟨?_, ?_, ?_⟩
  · rw [h.detection, h.eventRef, hu.event]
  · rw [h.detection, h.imageStorageRef, hu.object]
  · rw [h.detection, h.data, hu.image]

lemma Upload.same_stage (u : Upload Img) (stage : Stage) : u.Same { u with stage := stage } :=
  ⟨rfl, rfl, rfl, rfl, rfl⟩

lemma Upload.same_located (u : Upload Img) (url : URL) : u.Same (u.located url) :=
  ⟨rfl, rfl, rfl, rfl, rfl⟩

lemma urlWrites_located (u : Upload Img) (url : URL) :
    (u.located url).urlWrites =
      [setValue u.detection u.eventRef urlKey (.text url.absoluteString)] := rfl

lemma uploadAt_eq_some {w : World Img} {i : ℕ} {stages : List Stage} {u : Upload Img}
    (h : uploadAt w i stages = some u) : w.uploads[i]? = some u ∧ u.stage ∈ stages := by
  simpa [uploadAt, Option.filter_eq_some_iff] using h

/-- The uploads go on one by one. -/
lemma forall_mem_set {us : List (Upload Img)} {i : ℕ} {u v : Upload Img}
    (hu : us[i]? = some u) (hv : u.Same v) : ∀ x ∈ us.set i v, ∃ y ∈ us, y.Same x := by
  intro x hx
  rcases List.mem_or_eq_of_mem_set hx with hx | rfl
  · exact ⟨x, hx, Upload.Same.refl x⟩
  · exact ⟨u, List.mem_of_getElem? hu, hv⟩

/-- No upload is forgotten. -/
lemma exists_mem_set {us : List (Upload Img)} {i : ℕ} {u v : Upload Img}
    (hu : us[i]? = some u) (hv : u.Same v) : ∀ y ∈ us, ∃ x ∈ us.set i v, y.Same x := by
  intro y hy
  obtain ⟨j, hj⟩ := List.mem_iff_getElem?.mp hy
  have hi : i < us.length := (List.getElem?_eq_some_iff.mp hu).1
  by_cases hij : i = j
  · subst hij
    obtain rfl : u = y := Option.some.inj (hu.symm.trans hj)
    exact ⟨v, List.mem_set hi v, hv⟩
  · refine ⟨y, List.mem_of_getElem? (i := j) ?_, Upload.Same.refl y⟩
    rw [List.getElem?_set_ne hij, hj]

/-- An upload may have gone on, and a user signed in or out: nothing else has changed but the
storage. -/
structure GoesOn (w t : World Img) : Prop where
  database : t.database = w.database
  outbox : t.outbox = w.outbox
  detections : t.detections = w.detections
  added : t.added = w.added
  issued : t.issued = w.issued
  uploads : ∀ u ∈ t.uploads, ∃ v ∈ w.uploads, v.Same u

lemma goesOn_refl (w : World Img) : GoesOn w w :=
  ⟨rfl, rfl, rfl, rfl, rfl, fun u hu => ⟨u, hu, Upload.Same.refl u⟩⟩

lemma goesOn_set {w : World Img} {i : ℕ} {u v : Upload Img} (hu : w.uploads[i]? = some u)
    (hv : u.Same v) : GoesOn w { w with uploads := w.uploads.set i v } :=
  ⟨rfl, rfl, rfl, rfl, rfl, forall_mem_set hu hv⟩

lemma goesOn_move (w : World Img) (i : ℕ) (stages : List Stage) (stage : Stage) :
    GoesOn w (move w i stages stage) := by
  unfold move
  split
  · exact goesOn_refl w
  · rename_i u hu
    exact goesOn_set (uploadAt_eq_some hu).1 (u.same_stage stage)

lemma goesOn_store (w : World Img) (i : ℕ) : GoesOn w (store w i) := by
  unfold store
  split
  · exact goesOn_refl w
  · rename_i u hu
    have hset := goesOn_set (uploadAt_eq_some hu).1 (u.same_stage .stored)
    exact ⟨rfl, rfl, rfl, rfl, rfl, hset.uploads⟩

/-- **What an action does**: it adds a detection, a write arrives, a location is handed out,
or an upload goes on. -/
theorem step_cases {w t : World Img} {a : Act Img} (h : step cloud w a = some t) :
    (∃ device now image score d, a = .detect device now image score ∧
      Detection.ofImage (w.currentUser device) now image score = some d ∧
        addDetection w device d = some t) ∨
    (∃ device, a = .apply device ∧ t = apply w device) ∨
    (∃ i, a = .urlDone i ∧ t = urlDone cloud w i) ∨ GoesOn w t := by
  cases a with
  | detect device now image score =>
    obtain ⟨d, hd, hadd⟩ := Option.bind_eq_some_iff.mp h
    exact .inl ⟨device, now, image, score, d, rfl, hd, hadd⟩
  | apply device => exact .inr (.inl ⟨device, rfl, (Option.some.inj h).symm⟩)
  | urlDone i => exact .inr (.inr (.inl ⟨i, rfl, (Option.some.inj h).symm⟩))
  | signIn device user =>
    obtain rfl := Option.some.inj h
    exact .inr (.inr (.inr ⟨rfl, rfl, rfl, rfl, rfl, (goesOn_refl w).uploads⟩))
  | store i =>
    obtain rfl := Option.some.inj h
    exact .inr (.inr (.inr (goesOn_store w i)))
  | putFailed i =>
    obtain rfl := Option.some.inj h
    exact .inr (.inr (.inr (goesOn_move w i _ _)))
  | putDone i =>
    obtain rfl := Option.some.inj h
    exact .inr (.inr (.inr (goesOn_move w i _ _)))
  | urlFailed i =>
    obtain rfl := Option.some.inj h
    exact .inr (.inr (.inr (goesOn_move w i _ _)))

/-! ### The invariant -/

/-- What adding `d` writes under a key of its node. -/
def fieldOf (cloud : Cloud) (d : Detection Img) (key : Text) : Option Value :=
  if key = millisKey then some (.num d.millis)
  else if key = scoreKey then some (.num d.score.value)
  else if key = schoolKey then some (.text d.school)
  else if key = urlKey then
    (imageStorageRef d).map fun o => .text (cloud.downloadURL o).absoluteString
  else none

lemma fieldOf_millisKey (d : Detection Img) :
    fieldOf cloud d millisKey = some (.num d.millis) := rfl

lemma fieldOf_scoreKey (d : Detection Img) :
    fieldOf cloud d scoreKey = some (.num d.score.value) := rfl

lemma fieldOf_schoolKey (d : Detection Img) :
    fieldOf cloud d schoolKey = some (.text d.school) := rfl

lemma fieldOf_urlKey {d : Detection Img} {o : Path} (ho : imageStorageRef d = some o) :
    fieldOf cloud d urlKey = some (.text (cloud.downloadURL o).absoluteString) := by
  have h : fieldOf cloud d urlKey =
    (imageStorageRef d).map fun o => .text (cloud.downloadURL o).absoluteString := rfl
  rw [h, ho, Option.map_some]

/-- `v` is what adding `d` writes at `p`. -/
def Describes (cloud : Cloud) (d : Detection Img) (p : Path) (v : Value) : Prop :=
  ∃ r key, eventRef d = some r ∧ p = r ++ [key] ∧ fieldOf cloud d key = some v

structure Filed (cloud : Cloud) (w : World Img) : Prop where
  built : ∀ d ∈ w.added, d.Built
  event : ∀ d ∈ w.added, eventRef d = some (nodePath d)
  issued : ∀ x ∈ w.issued, x.detection ∈ w.added ∧ Describes cloud x.detection x.path x.value
  outbox : ∀ device, ∀ x ∈ w.outbox device, x ∈ w.issued
  database : ∀ p v, w.database.get p = some v → ∃ x ∈ w.issued, x.path = p ∧ x.value = v
  uploads : ∀ u ∈ w.uploads, u.detection ∈ w.added ∧ u.Fits
  storage : ∀ o i, w.storage o = some i → ∃ u ∈ w.uploads, u.imageStorageRef = o ∧ u.data = i

lemma filed_init (currentUser : ℕ → Option User) :
    Filed cloud (init currentUser : World Img) := by
  refine ⟨?_, ?_, ?_, ?_, ?_, ?_, ?_⟩ <;> simp [init]

/-- The writes handed to a connection are issued. -/
lemma Filed.issue {w : World Img} (hw : Filed cloud w) (device : ℕ) (ws : List (Write Img))
    (hws : ∀ x ∈ ws, x.detection ∈ w.added ∧ Describes cloud x.detection x.path x.value) :
    Filed cloud (w.issue device ws) where
  built := hw.built
  event := hw.event
  issued := by
    intro x hx
    rcases List.mem_append.mp hx with hx | hx
    · exact hw.issued x hx
    · exact hws x hx
  outbox := by
    intro dev x hx
    rcases mem_outbox_append.mp hx with hx | ⟨-, hx⟩
    · exact List.mem_append_left _ (hw.outbox dev x hx)
    · exact List.mem_append_right _ hx
  database := by
    intro p v h
    obtain ⟨x, hx, hxp⟩ := hw.database p v h
    exact ⟨x, List.mem_append_left _ hx, hxp⟩
  uploads := hw.uploads
  storage := hw.storage

/-- More detections and uploads of them do not disturb the old ones. -/
lemma Filed.add {w : World Img} (hw : Filed cloud w) {d : Detection Img} (hd : d.Built)
    (hp : eventRef d = some (nodePath d)) (detections : ℕ → List (Detection Img))
    (us : List (Upload Img)) (hus : ∀ u ∈ us, u.detection = d ∧ u.Fits) :
    Filed cloud { w with
      uploads := w.uploads ++ us, detections := detections, added := w.added ++ [d] } where
  built := by
    intro e he
    rcases List.mem_append.mp he with he | he
    · exact hw.built e he
    · rwa [List.mem_singleton.mp he]
  event := by
    intro e he
    rcases List.mem_append.mp he with he | he
    · exact hw.event e he
    · rwa [List.mem_singleton.mp he]
  issued := fun x hx => (hw.issued x hx).imp_left (List.mem_append_left _)
  outbox := hw.outbox
  database := hw.database
  uploads := by
    intro u hu
    rcases List.mem_append.mp hu with hu | hu
    · exact (hw.uploads u hu).imp_left (List.mem_append_left _)
    · obtain ⟨rfl, hfits⟩ := hus u hu
      exact ⟨List.mem_append_right _ (List.mem_singleton_self _), hfits⟩
  storage := by
    intro o i h
    obtain ⟨u, hu, huo⟩ := hw.storage o i h
    exact ⟨u, List.mem_append_left _ hu, huo⟩

lemma mem_fieldWrites (cloud : Cloud) {d : Detection Img} {p : Path}
    (hp : eventRef d = some p) {x : Write Img} (hx : x ∈ fieldWrites d p) :
    x.detection = d ∧ Describes cloud d x.path x.value := by
  simp only [fieldWrites, List.mem_cons, List.not_mem_nil, or_false] at hx
  rcases hx with rfl | rfl | rfl
  · exact ⟨rfl, p, millisKey, hp, rfl, fieldOf_millisKey d⟩
  · exact ⟨rfl, p, scoreKey, hp, rfl, fieldOf_scoreKey d⟩
  · exact ⟨rfl, p, schoolKey, hp, rfl, fieldOf_schoolKey d⟩

lemma Filed.addDetection {w t : World Img} (hw : Filed cloud w) {device : ℕ}
    {d : Detection Img} (hd : d.Built) (h : addDetection w device d = some t) :
    Filed cloud t := by
  obtain ⟨p, us, hp, hus, rfl⟩ := addDetection_eq_some h
  obtain rfl := ((eventRef_eq_some hd).mp hp).2
  have hadd := hw.add hd hp (Function.update w.detections device (w.detections device ++ [d]))
    us fun u hu => by
      obtain ⟨h1, -, -, h4⟩ := mem_putData hp hus hu
      exact ⟨h1, h4⟩
  refine hadd.issue device (fieldWrites d (nodePath d)) fun x hx => ?_
  obtain ⟨rfl, hdesc⟩ := mem_fieldWrites cloud hp hx
  exact ⟨List.mem_append_right _ (List.mem_singleton_self _), hdesc⟩

lemma Filed.apply {w : World Img} (hw : Filed cloud w) (device : ℕ) :
    Filed cloud (apply w device) := by
  unfold FirebaseHelper.apply
  split
  · exact hw
  · rename_i x xs hout
    have hx : x ∈ w.issued := hw.outbox device x (by simp [hout])
    refine { hw with outbox := fun dev y hy => ?_, database := fun p v h => ?_ }
    · exact hw.outbox dev y (mem_outbox_tail hout hy)
    · rcases PathStore.get_set_eq_some h with ⟨rfl, rfl⟩ | ⟨-, h⟩
      · exact ⟨x, hx, rfl, rfl⟩
      · exact hw.database p v h

/-- An upload goes on. -/
lemma Filed.set {w : World Img} (hw : Filed cloud w) {i : ℕ} {u v : Upload Img}
    (hu : w.uploads[i]? = some u) (hv : u.Same v) :
    Filed cloud { w with uploads := w.uploads.set i v } := by
  refine { hw with uploads := fun x hx => ?_, storage := fun o img h => ?_ }
  · obtain ⟨y, hy, hyx⟩ := forall_mem_set hu hv x hx
    obtain ⟨hadd, hfits⟩ := hw.uploads y hy
    exact ⟨hyx.detection ▸ hadd, hyx.fits hfits⟩
  · obtain ⟨y, hy, rfl, rfl⟩ := hw.storage o img h
    obtain ⟨x, hx, hyx⟩ := exists_mem_set hu hv y hy
    exact ⟨x, hx, hyx.imageStorageRef, hyx.data⟩

lemma Filed.move {w : World Img} (hw : Filed cloud w) (i : ℕ) (stages : List Stage)
    (stage : Stage) : Filed cloud (move w i stages stage) := by
  unfold FirebaseHelper.move
  split
  · exact hw
  · rename_i u hu
    exact hw.set (uploadAt_eq_some hu).1 (u.same_stage _)

lemma Filed.store {w : World Img} (hw : Filed cloud w) (i : ℕ) : Filed cloud (store w i) := by
  unfold FirebaseHelper.store
  split
  · exact hw
  · rename_i u hu
    have hmem := (uploadAt_eq_some hu).1
    have hset := hw.set hmem (u.same_stage .stored)
    refine { hset with storage := fun o img h => ?_ }
    by_cases ho : o = u.imageStorageRef
    · subst ho
      obtain rfl : u.data = img := by simpa using h
      have hi : i < w.uploads.length := (List.getElem?_eq_some_iff.mp hmem).1
      exact ⟨{ u with stage := .stored }, List.mem_set hi _, rfl, rfl⟩
    · dsimp only at h
      rw [Function.update_of_ne ho] at h
      exact hset.storage o img h

lemma Filed.urlDone {w : World Img} (hw : Filed cloud w) (i : ℕ) :
    Filed cloud (urlDone cloud w i) := by
  unfold FirebaseHelper.urlDone
  split
  · exact hw
  · rename_i u hu
    have hmem := (uploadAt_eq_some hu).1
    obtain ⟨hadd, hfits⟩ := hw.uploads u (List.mem_of_getElem? hmem)
    refine (hw.set hmem (Upload.same_located u _)).issue _ _ fun x hx => ?_
    rw [urlWrites_located, List.mem_singleton] at hx
    subst hx
    exact ⟨hadd, _, urlKey, hfits.event, rfl, fieldOf_urlKey hfits.object⟩

/-- **Every action keeps the provenance.** -/
lemma Filed.step {w t : World Img} (hw : Filed cloud w) {a : Act Img}
    (h : step cloud w a = some t) : Filed cloud t := by
  cases a with
  | signIn device user =>
    obtain rfl := Option.some.inj h
    exact { hw with }
  | detect device now image score =>
    obtain ⟨d, hd, h⟩ := Option.bind_eq_some_iff.mp h
    exact hw.addDetection (Detection.ofImage_eq_some hd).1 h
  | apply device =>
    obtain rfl := Option.some.inj h
    exact hw.apply device
  | store i =>
    obtain rfl := Option.some.inj h
    exact hw.store i
  | putFailed i =>
    obtain rfl := Option.some.inj h
    exact hw.move i _ _
  | putDone i =>
    obtain rfl := Option.some.inj h
    exact hw.move i _ _
  | urlFailed i =>
    obtain rfl := Option.some.inj h
    exact hw.move i _ _
  | urlDone i =>
    obtain rfl := Option.some.inj h
    exact hw.urlDone i

/-- **Provenance**: in every run, whatever is in the database and the storage was put there
for a detection that was added, where its references point. -/
theorem filed_of_run {currentUser : ℕ → Option User} {as : List (Act Img)} {t : World Img}
    (h : run (step cloud) (init currentUser) as = some t) : Filed cloud t :=
  run_inv (fun _ _ _ hw hstep => hw.step hstep) (filed_init currentUser) h

/-! ### Devices that add nothing -/

/-- The device `addDetection` is called on. -/
def Act.caller : Act Img → Option ℕ
  | .detect device .. => some device
  | _ => none

/-- No write of the device is pending, and no upload of it will make one. -/
def Silent (device : ℕ) (w : World Img) : Prop :=
  w.outbox device = [] ∧ ∀ u ∈ w.uploads, u.device ≠ device

lemma Silent.issue {w : World Img} {device dev : ℕ} (h : Silent device w) (hdev : dev ≠ device)
    (ws : List (Write Img)) : Silent device (w.issue dev ws) := by
  refine ⟨?_, h.2⟩
  unfold World.issue
  dsimp only
  rw [Function.update_of_ne (Ne.symm hdev), h.1]

lemma Silent.goesOn {w t : World Img} {device : ℕ} (h : Silent device w) (hwt : GoesOn w t) :
    Silent device t := by
  refine ⟨by rw [hwt.outbox, h.1], fun x hx => ?_⟩
  obtain ⟨y, hy, hyx⟩ := hwt.uploads x hx
  rw [hyx.device]
  exact h.2 y hy

lemma Silent.step {w t : World Img} {device : ℕ} (h : Silent device w) {a : Act Img}
    (ha : a.caller ≠ some device) (hstep : step cloud w a = some t) : Silent device t := by
  obtain ⟨dev, now, image, score, d, rfl, -, hadd⟩ | ⟨dev, rfl, rfl⟩ | ⟨i, rfl, rfl⟩ | hgo :=
    step_cases hstep
  · have hdev : dev ≠ device := by simpa [Act.caller] using ha
    obtain ⟨p, us, hp, hus, rfl⟩ := addDetection_eq_some hadd
    refine ⟨?_, fun u hu => ?_⟩
    · dsimp only
      rw [Function.update_of_ne (Ne.symm hdev), h.1]
    · rcases List.mem_append.mp hu with hu | hu
      · exact h.2 u hu
      · rw [(mem_putData hp hus hu).2.1]
        exact hdev
  · unfold apply
    split
    · exact h
    · rename_i x xs hout
      refine ⟨List.eq_nil_iff_forall_not_mem.mpr fun y hy => ?_, h.2⟩
      have hmem := mem_outbox_tail hout hy
      simp [h.1] at hmem
  · unfold urlDone
    split
    · exact h
    · rename_i u hu
      have hmem := (uploadAt_eq_some hu).1
      exact (h.goesOn (goesOn_set hmem (u.same_located _))).issue
        (h.2 u (List.mem_of_getElem? hmem)) _
  · exact h.goesOn hgo

/-- A device that adds no detection has nothing pending. -/
theorem outbox_of_silent {currentUser : ℕ → Option User} {as : List (Act Img)} {t : World Img}
    (h : run (step cloud) (init currentUser) as = some t) {device : ℕ}
    (hdev : ∀ a ∈ as, a.caller ≠ some device) : t.outbox device = [] := by
  have hsilent : Silent device t :=
    run_inv_along (C := fun _ a => a.caller ≠ some device)
      (fun _ _ _ hw ha hstep => hw.step ha hstep) ⟨rfl, by simp [init]⟩
      (along_of_mem _ hdev) h
  exact hsilent.1

end Solta.FirebaseHelper
