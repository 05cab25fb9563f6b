import Solta.HalfWritten

/-!
The list in memory and the database.

`addDetection` appends a copy of the detection to `detections` and keeps on changing its own:
the location of the picture reaches the detection of the closure, and from it the database,
but never the list. The list agrees with the database as long as no location is handed out.
-/

namespace Solta.Agreement

open Lib Lib.Run FirebaseHelper Records HalfWritten

variable {Img : Type} {cloud : Cloud}

/-- The location a detection is built with. -/
def placeholder : Text := "2ndpage.png".toList

/-- What the node of an entry holds is what the entry says. -/
structure EntryAgrees (s : DataSnapshot) (d : Detection Img) : Prop where
  millis : s.get (nodePath d ++ [millisKey]) = some (.num d.millis)
  score : s.get (nodePath d ++ [scoreKey]) = some (.num d.score.value)
  school : s.get (nodePath d ++ [schoolKey]) = some (.text d.school)
  url : ∀ v, s.get (nodePath d ++ [urlKey]) = some v → d.imageURLString.map .text = some v
  location : d.imageURL.map URL.absoluteString = d.imageURLString

/-- Every device finds the entries of its list in the database, as it is shown it with all
its own writes. -/
def Agrees (w : World Img) : Prop :=
  ∀ device, ∀ d ∈ w.detections device, EntryAgrees (shown w.database (w.outbox device)) d

/-- No upload is handed the location of its object. -/
def Unlocated (w : World Img) : Act Img → Prop
  | .urlDone i => uploadAt w i [.asked] = none
  | _ => True

instance (w : World Img) : ∀ a, Decidable (Unlocated w a)
  | .urlDone i => inferInstanceAs (Decidable (uploadAt w i [.asked] = none))
  | .signIn .. | .detect .. | .apply _ | .store _ | .putFailed _ | .putDone _ | .urlFailed _ =>
    isTrue trivial

/-- No login leads below a field of the other's node. -/
def Clear (d e : Detection Img) : Prop :=
  ∀ key ∈ fieldKeys, ¬ nodePath d ++ [key] <+: nodePath e

instance (d e : Detection Img) : Decidable (Clear d e) :=
  inferInstanceAs (Decidable (∀ key ∈ fieldKeys, ¬ nodePath d ++ [key] <+: nodePath e))

/-! ### The list -/

variable {w t : World Img}

/-- The entries are detections as they were built, their writes have been issued, and the
uploads are those of the entries. -/
structure Entered (w : World Img) : Prop where
  added : ∀ device, ∀ d ∈ w.detections device, d ∈ w.added
  built : ∀ d ∈ w.added, d.imageURLString = some placeholder ∧
    d.imageURL = URL.ofString placeholder
  issued : ∀ device, ∀ d ∈ w.detections device, ∀ x ∈ fieldWrites d (nodePath d), x ∈ w.issued
  uploads : ∀ u ∈ w.uploads, u.detection ∈ w.detections u.device

lemma entered_init (currentUser : ℕ → Option User) : Entered (init currentUser : World Img) := by
  refine ⟨?_, ?_, ?_, ?_⟩ <;> simp [init]

lemma imageURLString_of_ofImage {currentUser : Option User} {now : ℚ} {score : Float32}
    {image : Option (UIImage Img)} {d : Detection Img}
    (h : Detection.ofImage currentUser now image score = some d) :
    d.imageURLString = some placeholder ∧ d.imageURL = URL.ofString placeholder := by
  simp only [Detection.ofImage, Option.bind_eq_bind, Option.bind_eq_some_iff,
    Option.some.injEq] at h
  obtain ⟨user, -, email, -, login, -, rfl⟩ := h
  exact ⟨rfl, rfl⟩

lemma Entered.addDetection (hw : Entered w) {device : ℕ} {d : Detection Img} (hd : d.Built)
    (hurl : d.imageURLString = some placeholder ∧ d.imageURL = URL.ofString placeholder)
    (h : addDetection w device d = some t) : Entered t := by
  obtain ⟨p, us, hp, hus, rfl⟩ := addDetection_eq_some h
  obtain rfl := ((eventRef_eq_some hd).mp hp).2
  refine ⟨fun dev e he => ?_, fun e he => ?_, fun dev e he x hx => ?_, fun u hu => ?_⟩
  · rcases mem_outbox_append.mp he with he | ⟨-, he⟩
    · exact List.mem_append_left _ (hw.added dev e he)
    · exact List.mem_append_right _ he
  · rcases List.mem_append.mp he with he | he
    · exact hw.built e he
    · rwa [List.mem_singleton.mp he]
  · rcases mem_outbox_append.mp he with he | ⟨-, he⟩
    · exact List.mem_append_left _ (hw.issued dev e he x hx)
    · rw [List.mem_singleton.mp he] at hx
      exact List.mem_append_right _ hx
  · rcases List.mem_append.mp hu with hu | hu
    · exact mem_outbox_append.mpr (Or.inl (hw.uploads u hu))
    · obtain ⟨hdet, hdev, -, -⟩ := mem_putData hp hus hu
      rw [hdet, hdev]
      exact mem_outbox_append.mpr (Or.inr ⟨rfl, List.mem_singleton_self d⟩)

lemma Entered.goesOn (hw : Entered w) (h : GoesOn w t) : Entered t := by
  refine ⟨?_, ?_, ?_, fun x hx => ?_⟩
  · rw [h.detections, h.added]
    exact hw.added
  · rw [h.added]
    exact hw.built
  · rw [h.detections, h.issued]
    exact hw.issued
  · obtain ⟨y, hy, hyx⟩ := h.uploads x hx
    rw [h.detections, hyx.detection, hyx.device]
    exact hw.uploads y hy

lemma Entered.step (hw : Entered w) {a : Act Img} (h : step cloud w a = some t) : Entered t := by
  obtain ⟨device, now, image, score, d, -, hd, hadd⟩ | ⟨device, -, rfl⟩ | ⟨i, -, rfl⟩ | hgo :=
    step_cases h
  · exact hw.addDetection (Detection.ofImage_eq_some hd).1 (imageURLString_of_ofImage hd) hadd
  · unfold apply
    split
    · exact hw
    · exact ⟨hw.added, hw.built, hw.issued, hw.uploads⟩
  · unfold urlDone
    split
    · exact hw
    · rename_i u hu
      have hset := hw.goesOn (goesOn_set (uploadAt_eq_some hu).1
        (u.same_located (cloud.downloadURL u.imageStorageRef)))
      refine ⟨hset.added, hset.built, fun dev d hd x hx => ?_, hset.uploads⟩
      exact List.mem_append_left _ (hset.issued dev d hd x hx)
  · exact hw.goesOn hgo

/-! ### The nodes -/

/-- All writes issued so far are those of the calls themselves. -/
def OnlyFields (w : World Img) : Prop :=
  ∀ x ∈ w.issued, x ∈ fieldWrites x.detection (nodePath x.detection)

/-- The writes of the entries of every list are on their way or in the database. -/
def Stays (w : World Img) : Prop :=
  ∀ device, ∀ d ∈ w.detections device, ∀ x ∈ fieldWrites d (nodePath d), LandedAt w device x

/-- No two calls have one key, and no login leads below a field of another call's node. -/
def Distinct (w : World Img) : Prop :=
  (w.added.map Detection.getDate).Nodup ∧ ∀ d ∈ w.added, ∀ e ∈ w.added, Clear d e

lemma path_of_mem_fieldWrites {d : Detection Img} {p : Path} {x : Write Img}
    (h : x ∈ fieldWrites d p) : x.detection = d ∧ ∃ key ∈ fieldKeys, x.path = p ++ [key] := by
  simp only [fieldWrites, List.mem_cons, List.not_mem_nil, or_false] at h
  rcases h with rfl | rfl | rfl
  · exact ⟨rfl, millisKey, by simp [fieldKeys], rfl⟩
  · exact ⟨rfl, scoreKey, by simp [fieldKeys], rfl⟩
  · exact ⟨rfl, schoolKey, by simp [fieldKeys], rfl⟩

lemma OnlyFields.step (hw : OnlyFields w) {a : Act Img} (ha : Unlocated w a)
    (h : step cloud w a = some t) : OnlyFields t := by
  obtain ⟨device, now, image, score, d, -, hd, hadd⟩ | ⟨device, -, rfl⟩ | ⟨i, rfl, rfl⟩ | hgo :=
    step_cases h
  · obtain ⟨p, us, hp, -, rfl⟩ := addDetection_eq_some hadd
    obtain rfl := ((eventRef_eq_some (Detection.ofImage_eq_some hd).1).mp hp).2
    intro x hx
    rcases List.mem_append.mp hx with hx | hx
    · exact hw x hx
    · rwa [(path_of_mem_fieldWrites hx).1]
  · unfold apply
    split <;> exact hw
  · have hnone : uploadAt w i [.asked] = none := ha
    unfold urlDone
    rw [hnone]
    exact hw
  · unfold OnlyFields
    rw [hgo.issued]
    exact hw

/-- Leaves of different calls are apart. -/
lemma Distinct.untouched (h : Distinct w) (hw : Filed cloud w) (honly : OnlyFields w)
    {x : Write Img} (hx : x ∈ w.issued) : Untouched w x := by
  intro y hy
  obtain ⟨hxadd, hxdesc⟩ := hw.issued x hx
  obtain ⟨hyadd, hydesc⟩ := hw.issued y hy
  by_cases hdet : y.detection = x.detection
  · exact eq_or_apart (hw.built _ hyadd) (hw.built _ hxadd) (.inl hdet) hydesc hxdesc
  obtain ⟨-, f, hf, hxp⟩ := path_of_mem_fieldWrites (honly x hx)
  obtain ⟨-, g, hg, hyp⟩ := path_of_mem_fieldWrites (honly y hy)
  have hne : x.path ≠ y.path := by
    intro heq
    rw [hxp, hyp] at heq
    have hnode := (List.append_inj' heq rfl).1
    have hkey : x.detection.getDate = y.detection.getDate := by
      simpa using (List.append_inj' hnode rfl).2
    exact hdet (List.inj_on_of_nodup_map h.1 hyadd hxadd hkey.symm)
  refine .inr ⟨fun hpre => ?_, fun hpre => ?_⟩
  · rw [hxp, List.prefix_concat_iff, ← hxp] at hpre
    refine hpre.elim (fun heq => hne heq.symm) fun hpre => ?_
    rw [hyp] at hpre
    exact h.2 _ hyadd _ hxadd g hg hpre
  · rw [hyp, List.prefix_concat_iff, ← hyp] at hpre
    refine hpre.elim hne fun hpre => ?_
    rw [hxp] at hpre
    exact h.2 _ hxadd _ hyadd f hf hpre

lemma Stays.step (hw : Stays w) (hfiled : Filed cloud w) (hentered : Entered w)
    (htidy : ∀ x ∈ w.issued, Untouched w x) {a : Act Img} (h : step cloud w a = some t) :
    Stays t := by
  obtain ⟨device, now, image, score, d, -, hd, hadd⟩ | ⟨device, -, rfl⟩ | ⟨i, -, rfl⟩ | hgo :=
    step_cases h
  · obtain ⟨p, us, hp, -, rfl⟩ := addDetection_eq_some hadd
    obtain rfl := ((eventRef_eq_some (Detection.ofImage_eq_some hd).1).mp hp).2
    intro dev e he x hx
    rcases mem_outbox_append.mp he with hold | ⟨hdev, hnew⟩
    · exact (hw dev e hold x hx).issue device _
    · rw [List.mem_singleton.mp hnew] at hx
      exact .inl (mem_outbox_append.mpr (.inr ⟨hdev, hx⟩))
  · have hdet : (FirebaseHelper.apply w device).detections = w.detections := by
      unfold FirebaseHelper.apply
      split <;> rfl
    intro dev d hd x hx
    rw [hdet] at hd
    exact (hw dev d hd x hx).apply hfiled (htidy x (hentered.issued dev d hd x hx)) device
  · unfold urlDone
    split
    · exact hw
    · exact fun dev d hd x hx => (hw dev d hd x hx).issue _ _
  · unfold Stays LandedAt
    rw [hgo.detections, hgo.outbox, hgo.database]
    exact hw

/-! ### Agreement -/

/-- A device that has written a leaf is shown it, when nothing else touches it. -/
lemma get_shown {database : DataSnapshot} {ys : List (Write Img)} {p : Path} {v : Value}
    (hys : ∀ y ∈ ys, (y.path = p ∧ y.value = v) ∨ Apart y.path p)
    (h : (∃ y ∈ ys, y.path = p) ∨ database.get p = some v) :
    (shown database ys).get p = some v := by
  induction ys generalizing database with
  | nil => exact h.resolve_left fun ⟨y, hy, _⟩ => List.not_mem_nil hy
  | cons y ys ih =>
    change (shown (database.set y.path y.value) ys).get p = some v
    refine ih (fun z hz => hys z (List.mem_cons_of_mem y hz)) ?_
    rcases hys y List.mem_cons_self with ⟨hpath, hvalue⟩ | hapart
    · refine .inr ?_
      rw [← hpath, ← hvalue]
      exact PathStore.get_set_self ..
    · rcases h with ⟨z, hz, hzp⟩ | h
      · rcases List.mem_cons.mp hz with rfl | hz
        · exact absurd hzp hapart.ne
        · exact .inl ⟨z, hz, hzp⟩
      · refine .inr ?_
        rw [PathStore.get_set_of_apart _ hapart]
        exact h

/-- What holds between the calls while only the calls themselves have written. -/
structure Steady (cloud : Cloud) (w : World Img) : Prop where
  filed : Filed cloud w
  entered : Entered w
  onlyFields : OnlyFields w
  stays : Stays w

lemma steady_init (currentUser : ℕ → Option User) :
    Steady cloud (init currentUser : World Img) :=
  ⟨filed_init currentUser, entered_init currentUser, by simp [OnlyFields, init],
    by simp [Stays, init]⟩

lemma Steady.step (hw : Steady cloud w) (hdistinct : Distinct w) {a : Act Img}
    (ha : Unlocated w a) (h : step cloud w a = some t) : Steady cloud t := by
  have htidy : ∀ x ∈ w.issued, Untouched w x :=
    fun x hx => hdistinct.untouched hw.filed hw.onlyFields hx
  exact ⟨hw.filed.step h, hw.entered.step h, hw.onlyFields.step ha h,
    hw.stays.step hw.filed hw.entered htidy h⟩

/-- **The entries agree** as long as only the calls themselves have written. -/
lemma Steady.agrees (h : Steady cloud w) (hdistinct : Distinct w) : Agrees w := by
  obtain ⟨hw, hentered, honly, hstays⟩ := h
  intro device d hd
  have hfield : ∀ x ∈ fieldWrites d (nodePath d),
      (shown w.database (w.outbox device)).get x.path = some x.value := by
    intro x hx
    have htidy := hdistinct.untouched hw honly (hentered.issued device d hd x hx)
    refine get_shown (fun y hy => htidy y (hw.outbox device y hy)) ?_
    exact (hstays device d hd x hx).imp_left fun h => ⟨x, h, rfl⟩
  obtain ⟨hstring, hurl⟩ := hentered.built d (hentered.added device d hd)
  refine ⟨?_, ?_, ?_, fun v hv => ?_, ?_⟩
  · exact hfield (setValue d (nodePath d) millisKey (.num d.millis)) (by simp [fieldWrites])
  · exact hfield (setValue d (nodePath d) scoreKey (.num d.score.value)) (by simp [fieldWrites])
  · exact hfield (setValue d (nodePath d) schoolKey (.text d.school)) (by simp [fieldWrites])
  · -- nobody has written a url
    have hissued : ∃ x ∈ w.issued, x.path = nodePath d ++ [urlKey] := by
      rcases present_of_shown hv with h | ⟨y, hy, hyp, -⟩
      · obtain ⟨x, hx, hxp, -⟩ := hw.database _ _ h
        exact ⟨x, hx, hxp⟩
      · exact ⟨y, hw.outbox device y hy, hyp⟩
    obtain ⟨x, hx, hxp⟩ := hissued
    obtain ⟨-, key, hkey, hxp'⟩ := path_of_mem_fieldWrites (honly x hx)
    rw [hxp] at hxp'
    obtain rfl : urlKey = key := by simpa using (List.append_inj' hxp' rfl).2
    exact absurd hkey urlKey_notMem_fieldKeys
  · rw [hstring, hurl]
    decide

/-- A location that is handed out reaches the database and not the list. -/
lemma unlocated_of_agrees (hurl : ∀ o, (cloud.downloadURL o).absoluteString ≠ placeholder)
    (hw : Filed cloud w) (hentered : Entered w) {a : Act Img} (h : step cloud w a = some t)
    (ht : Agrees t) : Unlocated w a := by
  cases a with
  | urlDone i =>
    by_contra hsome
    obtain ⟨u, hu⟩ := Option.ne_none_iff_exists'.mp hsome
    have hmem := List.mem_of_getElem? (uploadAt_eq_some hu).1
    obtain ⟨hadd, hfits⟩ := hw.uploads u hmem
    have hnode : u.eventRef = nodePath u.detection :=
      Option.some.inj (hfits.event.symm.trans (hw.event _ hadd))
    obtain rfl := Option.some.inj h
    have hentry := ht u.device u.detection (by
      unfold urlDone
      rw [hu]
      exact hentered.uploads u hmem)
    have hshown : (shown (urlDone cloud w i).database
        ((urlDone cloud w i).outbox u.device)).get (nodePath u.detection ++ [urlKey]) =
          some (.text (cloud.downloadURL u.imageStorageRef).absoluteString) := by
      unfold urlDone
      rw [hu]
      dsimp only [World.issue]
      rw [urlWrites_located, Upload.located]
      dsimp only
      rw [Function.update_self, shown, List.foldl_append, ← hnode]
      exact PathStore.get_set_self ..
    have hstring := hentry.url _ hshown
    rw [(hentered.built _ (hentered.added _ _ (hentered.uploads u hmem))).1] at hstring
    have htext : placeholder = (cloud.downloadURL u.imageStorageRef).absoluteString := by
      simpa using hstring
    exact hurl _ htext.symm
  | _ => trivial

lemma along_unlocated_of_always (hurl : ∀ o, (cloud.downloadURL o).absoluteString ≠ placeholder)
    {currentUser : ℕ → Option User} {as : List (Act Img)}
    (h : Always (step cloud) Agrees (init currentUser) as) :
    Along (step cloud) Unlocated (init currentUser) as :=
  along_of_always (I := fun w => Filed cloud w ∧ Entered w)
    (fun _ _ _ hw h => ⟨hw.1.step h, hw.2.step h⟩)
    (fun _ _ _ hw _ h ht => unlocated_of_agrees hurl hw.1 hw.2 h ht)
    ⟨filed_init currentUser, entered_init currentUser⟩ h

lemma distinct_of_step {a : Act Img} (h : step cloud w a = some t) (ht : Distinct t) :
    Distinct w := by
  have hpre := added_step h
  refine ⟨ht.1.sublist (hpre.sublist.map _), fun d hd e he => ?_⟩
  exact ht.2 d (hpre.subset hd) e (hpre.subset he)

/-- **When the list agrees with the database**: in a run of calls with distinct nodes, every
entry agrees with its node in every state, exactly when no upload is handed the location of
its object. -/
theorem agreement_iff (hurl : ∀ o, (cloud.downloadURL o).absoluteString ≠ placeholder)
    {currentUser : ℕ → Option User} {as : List (Act Img)} {t : World Img}
    (hrun : run (step cloud) (init currentUser) as = some t)
    (hkeys : (t.added.map Detection.getDate).Nodup)
    (hclear : ∀ d ∈ t.added, ∀ e ∈ t.added, Clear d e) :
    Always (step cloud) Agrees (init currentUser) as ↔
      Along (step cloud) Unlocated (init currentUser) as := by
  refine ⟨along_unlocated_of_always hurl, fun hunlocated => ?_⟩
  have halways := always_of_along_inherited (I := Steady cloud) (P := Distinct)
    (fun _ _ _ h hu => distinct_of_step h hu) (fun _ _ _ hw hd ha h => hw.step hd ha h)
    (steady_init currentUser) hunlocated hrun ⟨hkeys, hclear⟩
  exact halways.mono fun w hw => hw.1.agrees hw.2

lemma downloadURL_ne_placeholder (o : Path) :
    (Cloud.appBucket.downloadURL o).absoluteString ≠ placeholder := by
  intro h
  have hpre : Cloud.bucketURL <+: Cloud.objectURL o := Cloud.bucketURL_prefix o
  have hurl : Cloud.objectURL o = placeholder := h
  rw [hurl] at hpre
  exact absurd hpre (by decide)

/-- A call whose picture is stored, up to the answer that has its location. -/
def oneCall : List (Act ℕ) :=
  [.detect 0 1528300800 (some (.picture 7)) 40, .apply 0, .store 0, .putDone 0]

lemma exists_oneCall (a : Act ℕ) (h : a = .urlDone 0 ∨ a = .urlFailed 0) :
    ∃ t, run (step Cloud.appBucket) (init fun _ => some ada) (oneCall ++ [a]) = some t ∧
      (t.added.map Detection.getDate).Nodup ∧ ∀ d ∈ t.added, ∀ e ∈ t.added, Clear d e := by
  have hany : ∀ b ∈ [Act.urlDone 0, .urlFailed 0],
      (run (step Cloud.appBucket) (init fun _ => some ada) (oneCall ++ [b])).any fun t =>
        (t.added.map Detection.getDate).Nodup ∧ ∀ d ∈ t.added, ∀ e ∈ t.added, Clear d e := by
    decide +kernel
  obtain ⟨t, ht, hdistinct⟩ := (Option.any_eq_true _ _).mp (hany a (by simpa using h))
  exact ⟨t, ht, of_decide_eq_true hdistinct⟩

/-- Without the location the entry agrees throughout. -/
theorem agreement_one_call :
    Always (step Cloud.appBucket) Agrees (init fun _ => some ada) (oneCall ++ [.urlFailed 0]) := by
  obtain ⟨t, ht, hkeys, hclear⟩ := exists_oneCall (.urlFailed 0) (.inr rfl)
  exact (agreement_iff downloadURL_ne_placeholder ht hkeys hclear).mpr (by decide +kernel)

/-- With the location the database has it, and the entry still has the placeholder. -/
theorem not_always_in_agreement :
    ¬ ∀ (as : List (Act ℕ)) t, run (step Cloud.appBucket) (init fun _ => some ada) as = some t →
      (t.added.map Detection.getDate).Nodup → (∀ d ∈ t.added, ∀ e ∈ t.added, Clear d e) →
      Always (step Cloud.appBucket) Agrees (init fun _ => some ada) as := by
  intro h
  obtain ⟨t, ht, hkeys, hclear⟩ := exists_oneCall (.urlDone 0) (.inl rfl)
  have halong := along_unlocated_of_always downloadURL_ne_placeholder (h _ t ht hkeys hclear)
  revert halong
  decide +kernel

end Solta.Agreement
