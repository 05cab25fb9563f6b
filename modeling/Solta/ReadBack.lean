import Solta.Records

/-!
Reading back what was written.

`addDetection` files a detection under the key its own formatter renders. `init(snapshot:)`
rebuilds the date from `millis`, and its date string with a formatter that was given neither
the pattern nor the zone of the writer's. All fields come back, the date string never.
-/

namespace Solta.ReadBack

open Lib Lib.Run FirebaseHelper Records

variable {Img : Type} {cloud : Cloud}

/-- The fields of `d'` but for the date string are those of `d` and of its node. -/
structure SameFields (cloud : Cloud) (w : World Img) (d d' : Detection Img) : Prop where
  score : d'.score = d.score
  school : d'.school = d.school
  millis : d'.millis = d.millis
  date : d'.date = d.date
  url : ∃ o, w.database.get (nodePath d ++ [urlKey]) =
      some (.text (cloud.downloadURL o).absoluteString) ∧
    d'.imageURLString = some (cloud.downloadURL o).absoluteString ∧
    d'.imageURL = URL.ofString (cloud.downloadURL o).absoluteString

/-- Everything comes back. -/
def ReadsBack (cloud : Cloud) (w : World Img) (d d' : Detection Img) : Prop :=
  SameFields cloud w d d' ∧ d'.dateString = d.dateString

/-- What `init(snapshot:)` makes of the node of `d`. -/
def reread (cloud : Cloud) (w : World Img) (currentUser : Option User) (image : UIImage Img)
    (d : Detection Img) : Option (Detection Img) :=
  Detection.ofSnapshot cloud currentUser image (w.database.below (nodePath d))

/-- The date string of a built detection is its key, and is not empty. -/
lemma dateString_ne_nil {d : Detection Img} (hd : d.Built) : d.dateString ≠ [] := by
  rw [hd.dateString]
  exact FValidation.ne_nil_of_key hd.getDate_isValidKey

lemma dateString_ne {w : World Img} {currentUser : Option User} {image : UIImage Img}
    {d d' : Detection Img} (hd : d.Built) (h : reread cloud w currentUser image d = some d') :
    d'.dateString ≠ d.dateString := by
  rw [(Detection.of_ofSnapshot h).2]
  exact (dateString_ne_nil hd).symm

/-- A node with its fields and its url is read, with these fields. -/
lemma exists_reread {w : World Img} {d : Detection Img} (hd : d.Built) (hnode : NodeHolds w d)
    {i : Img} (hpicture : PictureKept cloud w d i) (currentUser : Option User)
    (image : UIImage Img) :
    ∃ d', reread cloud w currentUser image d = some d' ∧ SameFields cloud w d d' := by
  obtain ⟨o, hurl, -⟩ := hpicture
  have hread : Readable cloud (w.database.below (nodePath d)) d.millis d.score d.school
      (cloud.downloadURL o).absoluteString := by
    refine ⟨cloud.accepts_downloadURL o, ?_, ?_, ?_, ?_⟩ <;> rw [PathStore.get_below]
    · exact hnode.millis
    · exact hnode.score
    · exact hnode.school
    · exact hurl
  refine ⟨_, hread.ofSnapshot currentUser image, rfl, rfl, rfl, ?_, o, hurl, rfl, rfl⟩
  rw [hd.millis]

/-- **All but the date string comes back**: no detection is read back as it was, and of one
whose writes and uploads are done, with its node apart from the others', only the date string
is lost. -/
theorem reads_back_but_dateString {user : ℕ → Option User} {as : List (Act Img)} {t : World Img}
    (hrun : run (step cloud) (init user) as = some t) {d : Detection Img} (hd : d ∈ t.added)
    {i : Img} (hi : d.image = some (.picture i)) (hfin : Finished t d)
    (currentUser : Option User) (image : UIImage Img) :
    (¬ ∃ d', reread cloud t currentUser image d = some d' ∧ ReadsBack cloud t d d') ∧
      (Separate t.added →
        ∃ d', reread cloud t currentUser image d = some d' ∧ SameFields cloud t d d') := by
  have hw : Filed cloud t := filed_of_run hrun
  refine ⟨fun h => ?_, fun hsep => ?_⟩
  · obtain ⟨d', hread, -, hdate⟩ := h
    exact dateString_ne (hw.built d hd) hread hdate
  have hc := complete_of_run hrun hsep
  exact exists_reread (hw.built d hd) (hc.nodeHolds hd hfin) (hc.pictureKept hw hd hfin hi)
    currentUser image

/-- After the two calls the first one's detection is read with all fields but one. -/
theorem first_reads_back :
    ∃ t d, afterTwoCalls (1 / 1000) = some t ∧ d ∈ t.added ∧
      (¬ ∃ d', reread Cloud.appBucket t (some ada) .blank d = some d' ∧
        ReadsBack Cloud.appBucket t d d') ∧
      ∃ d', reread Cloud.appBucket t (some ada) .blank d = some d' ∧
        SameFields Cloud.appBucket t d d' := by
  obtain ⟨t, ht, hset, ⟨d, hd, himage⟩, hsep⟩ := exists_settled (1 / 1000)
    (fun t => (∃ d ∈ t.added, d.image = some (.picture 7)) ∧ Separate t.added)
    (by decide +kernel)
  obtain ⟨hnot, hfields⟩ :=
    reads_back_but_dateString ht hd himage (hset.finished d) (some ada) .blank
  exact ⟨t, d, ht, hd, hnot, hfields hsep⟩

/-- The two calls are completed, and no detection comes back. -/
theorem not_always_reads_back :
    ¬ ∀ t, afterTwoCalls (1 / 1000) = some t → Settled t →
      ∀ d ∈ t.added, ∃ d', reread Cloud.appBucket t (some ada) .blank d = some d' ∧
        ReadsBack Cloud.appBucket t d d' := by
  intro h
  obtain ⟨t, ht, hset, d, hd, -⟩ := exists_settled (1 / 1000)
    (fun t => ∃ d ∈ t.added, d.image = some (.picture 7)) (by decide +kernel)
  obtain ⟨d', hread, -, hdate⟩ := h t ht hset d hd
  exact dateString_ne ((filed_of_run ht).built d hd) hread hdate

end Solta.ReadBack
