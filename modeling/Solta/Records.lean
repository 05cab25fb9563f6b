import Solta.Provenance

/-!
What is left once all writes have arrived and all uploads are done.

Detections whose nodes are apart keep all their fields and their pictures, in whatever
order the writes and the completions of all devices came. Detections of one account have
nodes that are apart when their keys differ, which is when their clock readings differ in
the millisecond.
-/

namespace Solta.Records

open Lib Lib.Run FirebaseHelper

variable {Img : Type} {cloud : Cloud}

/-- No detection's node is at or below another's. -/
def Separate (ds : List (Detection Img)) : Prop :=
  ds.Pairwise fun d e => Apart (nodePath d) (nodePath e)

instance (ds : List (Detection Img)) : Decidable (Separate ds) :=
  inferInstanceAs (Decidable (ds.Pairwise _))

lemma Separate.of_mem {ds : List (Detection Img)} (h : Separate ds) {d e : Detection Img}
    (hd : d ∈ ds) (he : e ∈ ds) : d = e ∨ Apart (nodePath d) (nodePath e) := by
  have : Std.Symm fun d e : Detection Img => Apart (nodePath d) (nodePath e) :=
    ⟨fun _ _ h => h.symm⟩
  by_cases hde : d = e
  · exact Or.inl hde
  · exact Or.inr (h.forall hd he hde)

/-- Two writes either say the same or do not touch each other. -/
lemma eq_or_apart {d e : Detection Img} (hd : d.Built) (he : e.Built)
    (hde : d = e ∨ Apart (nodePath d) (nodePath e)) {p q : Path} {v v' : Value}
    (h : Describes cloud d p v) (h' : Describes cloud e q v') : p = q ∧ v = v' ∨ Apart p q := by
  obtain ⟨r, key, hr, rfl, hv⟩ := h
  obtain ⟨r', key', hr', rfl, hv'⟩ := h'
  obtain rfl := ((eventRef_eq_some hd).mp hr).2
  obtain rfl := ((eventRef_eq_some he).mp hr').2
  rcases hde with rfl | hapart
  · by_cases hkey : key = key'
    · subst hkey
      exact Or.inl ⟨rfl, Option.some.inj (hv.symm.trans hv')⟩
    · refine Or.inr (Apart.of_length_eq (by simp) ?_)
      simpa using hkey
  · exact Or.inr (hapart.extend (List.prefix_append _ _) (List.prefix_append _ _))

/-- A write is on its way or in the database. -/
def Landed (w : World Img) (x : Write Img) : Prop :=
  (∃ device, x ∈ w.outbox device) ∨ w.database.get x.path = some x.value

/-- The write of the location of an upload's object. -/
def urlWrite (cloud : Cloud) (u : Upload Img) : Write Img :=
  setValue u.detection u.eventRef urlKey
    (.text (cloud.downloadURL u.imageStorageRef).absoluteString)

/-- What has been done for an upload at its stage is still there. -/
structure Held (cloud : Cloud) (w : World Img) (u : Upload Img) : Prop where
  object : u.stage ∈ [.stored, .asked, .done] → w.storage u.imageStorageRef = some u.data
  url : u.stage = .done → Landed w (urlWrite cloud u)

/-- Nothing that was added is lost. -/
structure Complete (cloud : Cloud) (w : World Img) : Prop where
  fields : ∀ d ∈ w.added, ∀ x ∈ fieldWrites d (nodePath d), Landed w x
  uploaded : ∀ d ∈ w.added, d.image ≠ none → ∃ u ∈ w.uploads, u.detection = d
  held : ∀ u ∈ w.uploads, Held cloud w u

lemma complete_init (currentUser : ℕ → Option User) :
    Complete cloud (init currentUser : World Img) := by
  refine ⟨?_, ?_, ?_⟩ <;> simp [init]

/-! ### Steps -/

variable {w t : World Img}

/-- A write is on its way from a device or in the database. -/
def LandedAt (w : World Img) (device : ℕ) (x : Write Img) : Prop :=
  x ∈ w.outbox device ∨ w.database.get x.path = some x.value

lemma landed_iff {x : Write Img} : Landed w x ↔ ∃ device, LandedAt w device x := by
  unfold Landed LandedAt
  rw [exists_or, exists_const]

/-- All other writes of the run say the same as `x` or do not touch it. -/
def Untouched (w : World Img) (x : Write Img) : Prop :=
  ∀ y ∈ w.issued, (y.path = x.path ∧ y.value = x.value) ∨ Apart y.path x.path

lemma untouched_of_separate (hw : Filed cloud w) (hsep : Separate w.added) {x : Write Img}
    (hadd : x.detection ∈ w.added) (hx : Describes cloud x.detection x.path x.value) :
    Untouched w x := by
  intro y hy
  obtain ⟨hyadd, hydesc⟩ := hw.issued y hy
  exact eq_or_apart (hw.built _ hyadd) (hw.built _ hadd) (hsep.of_mem hyadd hadd) hydesc hx

lemma LandedAt.issue {x : Write Img} {dev : ℕ} (h : LandedAt w dev x) (device : ℕ)
    (ws : List (Write Img)) : LandedAt (w.issue device ws) dev x :=
  h.imp_left fun h => mem_outbox_append.mpr (Or.inl h)

lemma Landed.issue {x : Write Img} (h : Landed w x) (device : ℕ) (ws : List (Write Img)) :
    Landed (w.issue device ws) x := by
  obtain ⟨dev, h⟩ := landed_iff.mp h
  exact landed_iff.mpr ⟨dev, h.issue device ws⟩

lemma landed_issue {device : ℕ} {ws : List (Write Img)} {x : Write Img} (hx : x ∈ ws) :
    Landed (w.issue device ws) x :=
  Or.inl ⟨device, mem_outbox_append.mpr (Or.inr ⟨rfl, hx⟩)⟩

/-- A write that arrives replaces no other. -/
lemma LandedAt.apply (hw : Filed cloud w) {x : Write Img} (hx : Untouched w x) (device : ℕ)
    {dev : ℕ} (h : LandedAt w dev x) : LandedAt (apply w device) dev x := by
  unfold FirebaseHelper.apply
  split
  · exact h
  · rename_i y ys hout
    rcases hx y (hw.outbox device y (by simp [hout])) with ⟨hpath, hvalue⟩ | hapart
    · refine Or.inr ?_
      rw [← hpath, ← hvalue]
      exact PathStore.get_set_self ..
    · rcases h with h | h
      · refine Or.inl ?_
        by_cases hdev : dev = device
        · subst hdev
          rw [hout] at h
          rcases List.mem_cons.mp h with rfl | h
          · exact absurd rfl hapart.ne
          · simpa using h
        · simpa [Function.update_of_ne hdev] using h
      · refine Or.inr ?_
        rw [PathStore.get_set_of_apart _ hapart]
        exact h

lemma Landed.apply (hw : Filed cloud w) (hsep : Separate w.added) (device : ℕ)
    {x : Write Img} (hadd : x.detection ∈ w.added)
    (hx : Describes cloud x.detection x.path x.value) (h : Landed w x) :
    Landed (apply w device) x := by
  obtain ⟨dev, h⟩ := landed_iff.mp h
  exact landed_iff.mpr ⟨dev, h.apply hw (untouched_of_separate hw hsep hadd hx) device⟩

/-- The location of an upload is a field of its detection. -/
lemma describes_urlWrite {u : Upload Img} (hu : u.Fits) :
    Describes cloud (urlWrite cloud u).detection (urlWrite cloud u).path
      (urlWrite cloud u).value :=
  ⟨_, urlKey, hu.event, rfl, fieldOf_urlKey hu.object⟩

lemma Complete.apply (hw : Filed cloud w) (hsep : Separate w.added) (hc : Complete cloud w)
    (device : ℕ) : Complete cloud (apply w device) := by
  refine ⟨?_, ?_, ?_⟩
  · intro d hd x hx
    rw [apply_added] at hd
    obtain ⟨hxd, hdesc⟩ := mem_fieldWrites cloud (hw.event d hd) hx
    rw [← hxd] at hdesc
    exact (hc.fields d hd x hx).apply hw hsep device (hxd ▸ hd) hdesc
  · rw [apply_added, apply_uploads]
    exact hc.uploaded
  · intro u hu
    rw [apply_uploads] at hu
    obtain ⟨hadd, hfits⟩ := hw.uploads u hu
    refine ⟨fun hstage => ?_, fun hstage => ?_⟩
    · rw [apply_storage]
      exact (hc.held u hu).object hstage
    · exact ((hc.held u hu).url hstage).apply hw hsep device hadd (describes_urlWrite hfits)

lemma Complete.addDetection (hc : Complete cloud w) {device : ℕ} {d : Detection Img}
    (hd : d.Built) (h : addDetection w device d = some t) : Complete cloud t := by
  obtain ⟨p, us, hp, hus, rfl⟩ := addDetection_eq_some h
  obtain rfl := ((eventRef_eq_some hd).mp hp).2
  refine ⟨?_, ?_, ?_⟩
  · intro e he x hx
    rcases List.mem_append.mp he with he | he
    · exact (hc.fields e he x hx).issue device _
    · rw [List.mem_singleton.mp he] at hx
      exact landed_issue hx
  · intro e he himage
    rcases List.mem_append.mp he with he | he
    · obtain ⟨u, hu, hue⟩ := hc.uploaded e he himage
      exact ⟨u, List.mem_append_left _ hu, hue⟩
    · obtain rfl := List.mem_singleton.mp he
      obtain ⟨image, himage⟩ := Option.ne_none_iff_exists'.mp himage
      obtain ⟨u, hu, hue⟩ := exists_mem_putData hus himage
      exact ⟨u, List.mem_append_right _ hu, hue⟩
  · intro u hu
    rcases List.mem_append.mp hu with hu | hu
    · exact ⟨(hc.held u hu).object, fun hstage => ((hc.held u hu).url hstage).issue device _⟩
    · obtain ⟨-, -, hstage, -⟩ := mem_putData hp hus hu
      exact ⟨by simp [hstage], by simp [hstage]⟩

/-- An upload that goes on is still an upload of its detection. -/
lemma Complete.uploaded_set (hc : Complete cloud w) {i : ℕ} {u v : Upload Img}
    (hu : w.uploads[i]? = some u) (hv : u.Same v) {d : Detection Img} (hd : d ∈ w.added)
    (himage : d.image ≠ none) : ∃ x ∈ w.uploads.set i v, x.detection = d := by
  obtain ⟨y, hy, hyd⟩ := hc.uploaded d hd himage
  obtain ⟨x, hx, hyx⟩ := exists_mem_set hu hv y hy
  exact ⟨x, hx, hyx.detection.trans hyd⟩

/-- An upload goes on, in a world where what was done for it is there. -/
lemma Complete.set (hc : Complete cloud w) {i : ℕ} {u v : Upload Img}
    (hu : w.uploads[i]? = some u) (hv : u.Same v) (hheld : Held cloud w v) :
    Complete cloud { w with uploads := w.uploads.set i v } := by
  refine ⟨hc.fields, fun d hd himage => hc.uploaded_set hu hv hd himage, fun x hx => ?_⟩
  rcases List.mem_or_eq_of_mem_set hx with hx | rfl
  · exact ⟨(hc.held x hx).object, (hc.held x hx).url⟩
  · exact ⟨hheld.object, hheld.url⟩

/-- A change of the stage alone that promises nothing new. -/
lemma Complete.move (hc : Complete cloud w) (i : ℕ) (stages : List Stage) {stage : Stage}
    (hstage : stage = .failed ∨ (stage = .asked ∧ stages = [.stored])) :
    Complete cloud (move w i stages stage) := by
  unfold FirebaseHelper.move
  split
  · exact hc
  · rename_i u hu
    obtain ⟨hmem, hin⟩ := uploadAt_eq_some hu
    have hheld := hc.held u (List.mem_of_getElem? hmem)
    refine hc.set hmem (u.same_stage stage) ?_
    rcases hstage with rfl | ⟨rfl, rfl⟩
    · exact ⟨by simp, by simp⟩
    · refine ⟨fun _ => hheld.object ?_, by simp⟩
      simp [List.mem_singleton.mp hin]

/-- Uploads of one object carry one picture. -/
lemma data_eq_of_object (hw : Filed cloud w) (hsep : Separate w.added) {u x : Upload Img}
    (hu : u ∈ w.uploads) (hx : x ∈ w.uploads) (ho : u.imageStorageRef = x.imageStorageRef) :
    u.data = x.data := by
  obtain ⟨huadd, hufits⟩ := hw.uploads u hu
  obtain ⟨hxadd, hxfits⟩ := hw.uploads x hx
  have hdet : u.detection = x.detection := by
    refine (hsep.of_mem huadd hxadd).resolve_right fun hapart => ?_
    obtain ⟨m, -, hm⟩ := (imageStorageRef_eq_some (hw.built _ huadd)).mp hufits.object
    obtain ⟨n, -, hn⟩ := (imageStorageRef_eq_some (hw.built _ hxadd)).mp hxfits.object
    rw [hm, hn] at ho
    exact (hapart.extend (List.prefix_append _ _) (List.prefix_append _ _)).ne ho
  have himage := hufits.image
  rw [hdet, hxfits.image] at himage
  simpa [eq_comm] using himage

/-- An object that is stored takes the place of no other's. -/
lemma Complete.store (hw : Filed cloud w) (hsep : Separate w.added) (hc : Complete cloud w)
    (i : ℕ) : Complete cloud (store w i) := by
  unfold FirebaseHelper.store
  split
  · exact hc
  · rename_i u hu
    obtain ⟨hmem, -⟩ := uploadAt_eq_some hu
    have humem := List.mem_of_getElem? hmem
    have hsame := u.same_stage .stored
    refine ⟨hc.fields, fun d hd himage => hc.uploaded_set hmem hsame hd himage, fun x hx => ?_⟩
    rcases List.mem_or_eq_of_mem_set hx with hx | rfl
    · refine ⟨fun hstage => ?_, (hc.held x hx).url⟩
      by_cases ho : x.imageStorageRef = u.imageStorageRef
      · have hdata : u.data = x.data := data_eq_of_object hw hsep humem hx ho.symm
        simp [ho, hdata]
      · dsimp only
        rw [Function.update_of_ne ho]
        exact (hc.held x hx).object hstage
    · exact ⟨by simp, by simp⟩

lemma Complete.urlDone (hc : Complete cloud w) (i : ℕ) :
    Complete cloud (urlDone cloud w i) := by
  unfold FirebaseHelper.urlDone
  split
  · exact hc
  · rename_i u hu
    obtain ⟨hmem, hin⟩ := uploadAt_eq_some hu
    have hheld := hc.held u (List.mem_of_getElem? hmem)
    have hsame := u.same_located (cloud.downloadURL u.imageStorageRef)
    refine ⟨fun d hd x hx => (hc.fields d hd x hx).issue _ _,
      fun d hd himage => hc.uploaded_set hmem hsame hd himage, fun x hx => ?_⟩
    rcases List.mem_or_eq_of_mem_set hx with hx | rfl
    · exact ⟨(hc.held x hx).object, fun hstage => ((hc.held x hx).url hstage).issue _ _⟩
    · refine ⟨fun _ => hheld.object ?_, fun _ => landed_issue ?_⟩
      · simp [List.mem_singleton.mp hin]
      · rw [urlWrites_located]
        exact List.mem_singleton_self _

/-- The detections added only grow. -/
lemma added_step {a : Act Img} (h : step cloud w a = some t) : w.added <+: t.added := by
  obtain ⟨device, now, image, score, d, -, -, hadd⟩ | ⟨device, -, rfl⟩ | ⟨i, -, rfl⟩ | hgo :=
    step_cases h
  · obtain ⟨p, us, -, -, rfl⟩ := addDetection_eq_some hadd
    exact List.prefix_append _ _
  · rw [apply_added]
  · rw [urlDone_added]
  · rw [hgo.added]

lemma Complete.step (hw : Filed cloud w) (hsep : Separate w.added) (hc : Complete cloud w)
    {a : Act Img} (h : step cloud w a = some t) : Complete cloud t := by
  cases a with
  | signIn device user =>
    obtain rfl := Option.some.inj h
    exact ⟨hc.fields, hc.uploaded, fun u hu => ⟨(hc.held u hu).object, (hc.held u hu).url⟩⟩
  | detect device now image score =>
    obtain ⟨d, hd, h⟩ := Option.bind_eq_some_iff.mp h
    exact hc.addDetection (Detection.ofImage_eq_some hd).1 h
  | apply device =>
    obtain rfl := Option.some.inj h
    exact hc.apply hw hsep device
  | store i =>
    obtain rfl := Option.some.inj h
    exact hc.store hw hsep i
  | putFailed i =>
    obtain rfl := Option.some.inj h
    exact hc.move i _ (Or.inl rfl)
  | putDone i =>
    obtain rfl := Option.some.inj h
    exact hc.move i _ (Or.inr ⟨rfl, rfl⟩)
  | urlFailed i =>
    obtain rfl := Option.some.inj h
    exact hc.move i _ (Or.inl rfl)
  | urlDone i =>
    obtain rfl := Option.some.inj h
    exact hc.urlDone i

/-- **Completeness**: in a run whose detections are separate nothing that was added is lost. -/
theorem complete_of_run {currentUser : ℕ → Option User} {as : List (Act Img)}
    (h : run (step cloud) (init currentUser) as = some t) (hsep : Separate t.added) :
    Complete cloud t := by
  have hinv : Filed cloud t ∧ Complete cloud t := by
    refine run_inv_inherited (I := fun w => Filed cloud w ∧ Complete cloud w)
      (P := fun w => Separate w.added) (fun w a u hstep hu => ?_)
      (fun w a u ⟨hw, hc⟩ hsep hstep => ?_)
      (fun _ => ⟨filed_init currentUser, complete_init currentUser⟩) h hsep
    · exact List.Pairwise.sublist (added_step hstep).sublist hu
    · exact ⟨hw.step hstep, hc.step hw hsep hstep⟩
  exact hinv.2

/-! ### The end of a run -/

/-- The writes of a detection have arrived, and its uploads are done. -/
structure Finished (w : World Img) (d : Detection Img) : Prop where
  outbox : ∀ device, ∀ x ∈ w.outbox device, x.detection ≠ d
  uploads : ∀ u ∈ w.uploads, u.detection = d → u.stage = .done

/-- All writes have arrived, and all uploads are done. -/
structure Settled (w : World Img) : Prop where
  outbox : ∀ device, w.outbox device = []
  uploads : ∀ u ∈ w.uploads, u.stage = .done

lemma Settled.finished (h : Settled w) (d : Detection Img) : Finished w d := by
  refine ⟨fun device x hx => ?_, fun u hu _ => h.uploads u hu⟩
  simp [h.outbox device] at hx

lemma Landed.get {x : Write Img} (h : Landed w x) (hfin : Finished w x.detection) :
    w.database.get x.path = some x.value :=
  h.resolve_left fun ⟨device, hx⟩ => hfin.outbox device x hx rfl

/-- The node of a detection holds its fields. -/
structure NodeHolds (w : World Img) (d : Detection Img) : Prop where
  millis : w.database.get (nodePath d ++ [millisKey]) = some (.num d.millis)
  score : w.database.get (nodePath d ++ [scoreKey]) = some (.num d.score.value)
  school : w.database.get (nodePath d ++ [schoolKey]) = some (.text d.school)

/-- The url of a node is the location of an object that holds the detection's picture. -/
def PictureKept (cloud : Cloud) (w : World Img) (d : Detection Img) (i : Img) : Prop :=
  ∃ o, w.database.get (nodePath d ++ [urlKey]) =
      some (.text (cloud.downloadURL o).absoluteString) ∧
    w.storage o = some i

lemma Complete.nodeHolds (hc : Complete cloud w) {d : Detection Img} (hd : d ∈ w.added)
    (hfin : Finished w d) : NodeHolds w d := by
  have hlanded := hc.fields d hd
  simp only [fieldWrites, List.forall_mem_cons] at hlanded
  obtain ⟨hm, hs, hsch, -⟩ := hlanded
  exact ⟨hm.get hfin, hs.get hfin, hsch.get hfin⟩

lemma Complete.pictureKept (hw : Filed cloud w) (hc : Complete cloud w) {d : Detection Img}
    (hd : d ∈ w.added) (hfin : Finished w d) {i : Img} (hi : d.image = some (.picture i)) :
    PictureKept cloud w d i := by
  obtain ⟨u, hu, rfl⟩ := hc.uploaded d hd (by simp [hi])
  obtain ⟨-, hfits⟩ := hw.uploads u hu
  have hdone := hfin.uploads u hu rfl
  have hpath : u.eventRef = nodePath u.detection :=
    Option.some.inj (hfits.event.symm.trans (hw.event _ hd))
  have hurl := ((hc.held u hu).url hdone).get hfin
  refine ⟨u.imageStorageRef, ?_, ?_⟩
  · rw [← hpath]
    exact hurl
  · have hdata : u.data = i := by simpa [hfits.image] using hi
    rw [← hdata]
    exact (hc.held u hu).object (by simp [hdone])

/-! ### One account -/

/-- The account's history has a node for every call, under the call's own key, and the node
holds the fields and the picture of the call's detection. -/
structure Kept (cloud : Cloud) (p : Path) (w : World Img) : Prop where
  nodes : (w.database.below p).children.Perm (w.added.map Detection.getDate)
  fields : ∀ d ∈ w.added, nodePath d = p ++ [d.getDate] ∧ NodeHolds w d
  pictures : ∀ d ∈ w.added, ∀ i, d.image = some (.picture i) → PictureKept cloud w d i

/-- The detections of one account all lie right below its path. -/
lemma nodePath_eq {user : User} {p : Path} (hp : getUserRef user = some p) {d : Detection Img}
    (hd : d.Built) (huser : d.user = some user) : nodePath d = p ++ [d.getDate] := by
  obtain ⟨user', e, hu, he, hlogin⟩ := hd.login
  obtain rfl : user = user' := Option.some.inj (huser.symm.trans hu)
  unfold getUserRef at hp
  rw [he, Option.bind_some, hlogin, Option.bind_some] at hp
  rw [nodePath, (userRef_eq_some.mp hp).2]

/-- Different keys of one account name nodes that are apart. -/
lemma separate_of_nodup {p : Path} {ds : List (Detection Img)}
    (hpath : ∀ d ∈ ds, nodePath d = p ++ [d.getDate]) (h : (ds.map Detection.getDate).Nodup) :
    Separate ds := by
  refine List.Pairwise.imp_of_mem ?_ (List.pairwise_map.mp h)
  intro d e hd he hne
  rw [hpath d hd, hpath e he]
  refine Apart.of_length_eq (by simp) ?_
  simpa using hne

/-- Every node below the path has the key of a detection. -/
lemma mem_keys_of_mem_children (hw : Filed cloud w) {p : Path}
    (hpath : ∀ d ∈ w.added, nodePath d = p ++ [d.getDate]) {k : Text}
    (hk : k ∈ (w.database.below p).children) : k ∈ w.added.map Detection.getDate := by
  obtain ⟨q, v, hget⟩ := PathStore.mem_children.mp hk
  rw [PathStore.get_below] at hget
  obtain ⟨x, hx, hxp, -⟩ := hw.database _ v hget
  obtain ⟨hadd, r, key, hr, hpr, -⟩ := hw.issued x hx
  obtain rfl : nodePath x.detection = r := Option.some.inj ((hw.event _ hadd).symm.trans hr)
  rw [hxp, hpath _ hadd, List.append_assoc, List.append_cancel_left_eq] at hpr
  obtain ⟨rfl, -⟩ := List.cons.inj hpr
  exact List.mem_map_of_mem hadd

lemma mem_children_of_nodeHolds {p : Path} {d : Detection Img}
    (hpath : nodePath d = p ++ [d.getDate]) (h : NodeHolds w d) :
    d.getDate ∈ (w.database.below p).children := by
  refine PathStore.mem_children.mpr ⟨[millisKey], .num d.millis, ?_⟩
  rw [PathStore.get_below, ← h.millis, hpath, List.append_assoc]
  rfl

lemma Kept.nodup {p : Path} (h : Kept cloud p w) : (w.added.map Detection.getDate).Nodup :=
  h.nodes.nodup_iff.mp (PathStore.nodup_children _)

/-- **What one account keeps**: when all writes and uploads of any number of devices are done,
its history has every call's node, fields and picture exactly when the keys differ. -/
theorem kept_iff {currentUser : ℕ → Option User} {as : List (Act Img)} {user : User} {p : Path}
    (hrun : run (step cloud) (init currentUser) as = some t) (hset : Settled t)
    (hone : ∀ d ∈ t.added, d.user = some user) (hp : getUserRef user = some p) :
    Kept cloud p t ↔ (t.added.map Detection.getDate).Nodup := by
  have hw : Filed cloud t := filed_of_run hrun
  have hpath : ∀ d ∈ t.added, nodePath d = p ++ [d.getDate] :=
    fun d hd => nodePath_eq hp (hw.built d hd) (hone d hd)
  refine ⟨Kept.nodup, fun hkeys => ?_⟩
  have hc := complete_of_run hrun (separate_of_nodup hpath hkeys)
  have hholds : ∀ d ∈ t.added, NodeHolds t d := fun d hd => hc.nodeHolds hd (hset.finished d)
  refine ⟨?_, fun d hd => ⟨hpath d hd, hholds d hd⟩,
    fun d hd i hi => hc.pictureKept hw hd (hset.finished d) hi⟩
  refine (List.perm_ext_iff_of_nodup (PathStore.nodup_children _) hkeys).mpr fun k => ?_
  refine ⟨mem_keys_of_mem_children hw hpath, fun hk => ?_⟩
  obtain ⟨d, hd, rfl⟩ := List.mem_map.mp hk
  exact mem_children_of_nodeHolds (hpath d hd) (hholds d hd)

def ada : User := ⟨some "ada@x.ca".toList⟩

/-- Two devices of one account add a detection each, and everything is completed. -/
def twoCalls (gap : ℚ) : List (Act ℕ) :=
  [.detect 0 1528300800 (some (.picture 7)) 40, .detect 1 (1528300800 + gap) (some (.picture 8)) 40,
    .store 1, .store 0, .putDone 0, .putDone 1, .apply 1, .urlDone 1, .urlDone 0] ++
    List.replicate 4 (.apply 0) ++ List.replicate 3 (.apply 1)

def afterTwoCalls (gap : ℚ) : Option (World ℕ) :=
  run (step Cloud.appBucket) (init fun _ => some ada) (twoCalls gap)

/-- Only the two devices can have anything pending. -/
lemma settled_twoCalls {gap : ℚ} {t : World ℕ} (h : afterTwoCalls gap = some t)
    (h0 : t.outbox 0 = []) (h1 : t.outbox 1 = []) (hdone : ∀ u ∈ t.uploads, u.stage = .done) :
    Settled t := by
  refine ⟨fun device => ?_, hdone⟩
  match device with
  | 0 => exact h0
  | 1 => exact h1
  | n + 2 =>
    refine outbox_of_silent h fun a ha => ?_
    simp only [twoCalls, List.mem_append, List.mem_cons, List.not_mem_nil, or_false,
      List.mem_replicate] at ha
    rcases ha with ((rfl | rfl | rfl | rfl | rfl | rfl | rfl | rfl | rfl) | ⟨-, rfl⟩) | ⟨-, rfl⟩
    all_goals simp [Act.caller]

/-- A test of the state at the end of the two calls, done when the outboxes are empty. -/
lemma exists_settled (gap : ℚ) (Q : World ℕ → Prop) [DecidablePred Q]
    (h : (afterTwoCalls gap).any fun t =>
      (t.outbox 0 = [] ∧ t.outbox 1 = [] ∧ ∀ u ∈ t.uploads, u.stage = .done) ∧ Q t) :
    ∃ t, afterTwoCalls gap = some t ∧ Settled t ∧ Q t := by
  obtain ⟨t, ht, hfinal⟩ := (Option.any_eq_true _ _).mp h
  obtain ⟨⟨h0, h1, hdone⟩, hQ⟩ := decide_eq_true_iff.mp hfinal
  exact ⟨t, ht, settled_twoCalls ht h0 h1 hdone, hQ⟩

/-- Two calls a millisecond apart are both kept. -/
theorem kept_two_calls :
    ∃ t, afterTwoCalls (1 / 1000) = some t ∧ t.added.length = 2 ∧
      Kept Cloud.appBucket [users, "ada".toList] t := by
  obtain ⟨t, ht, hset, hlen, hone, hkeys⟩ := exists_settled (1 / 1000)
    (fun t => t.added.length = 2 ∧ (∀ d ∈ t.added, d.user = some ada) ∧
      (t.added.map Detection.getDate).Nodup) (by decide +kernel)
  exact ⟨t, ht, hlen, (kept_iff ht hset hone (by decide)).mpr hkeys⟩

/-- Two calls in one millisecond are not. -/
theorem not_always_kept :
    ¬ ∀ t, afterTwoCalls (4 / 10000) = some t → Settled t →
      Kept Cloud.appBucket [users, "ada".toList] t := by
  intro h
  obtain ⟨t, ht, hset, hkeys⟩ := exists_settled (4 / 10000)
    (fun t => ¬ (t.added.map Detection.getDate).Nodup) (by decide +kernel)
  exact hkeys (h t ht hset).nodup

end Solta.Records
