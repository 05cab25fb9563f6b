import Solta.History
import Solta.Records

/-!
Nodes that are not complete yet.

The four writes of a node arrive one by one, the last of them after an upload that may fail.
A device is shown the database with some of its own pending writes, in their order. In
whatever is shown a node has a url only when it has all its other fields, so the history
never traps. Observers only read, so their callbacks may come between any two actions.
-/

namespace Solta.HalfWritten

open Lib Lib.Run FirebaseHelper HistoryVC Records

variable {Img : Type} {cloud : Cloud}

/-- The fields a node gets in the call itself. -/
def fieldKeys : List Text := [millisKey, scoreKey, schoolKey]

lemma paths_fieldWrites (d : Detection Img) (p : Path) :
    (fieldWrites d p).map Write.path = fieldKeys.map fun key => p ++ [key] := rfl

lemma urlKey_notMem_fieldKeys : urlKey ∉ fieldKeys := by decide

/-- What a device is shown that has made the writes `ys` itself. -/
def shown (database : DataSnapshot) (ys : List (Write Img)) : DataSnapshot :=
  ys.foldl (fun s y => s.set y.path y.value) database

/-- A leaf is in the database or is made by one of `ys`. -/
def Present (database : DataSnapshot) (ys : List (Write Img)) (p : Path) : Prop :=
  (∃ v, database.get p = some v) ∨ ∃ y ∈ ys, y.path = p

/-- A node with a url has all its other fields. -/
def Whole (database : DataSnapshot) (ys : List (Write Img)) : Prop :=
  ∀ r, Present database ys (r ++ [urlKey]) →
    ∀ key ∈ fieldKeys, Present database ys (r ++ [key])

/-- Every device is shown whole nodes, however many of its writes it sees, and the node of an
upload has its fields before it has its url. -/
structure Ordered (w : World Img) : Prop where
  prefixes : ∀ device ys, ys <+: w.outbox device → Whole w.database ys
  uploads : ∀ u ∈ w.uploads, ∀ key ∈ fieldKeys,
    Present w.database (w.outbox u.device) (u.eventRef ++ [key])

/-! ### Leaves -/

variable {database : DataSnapshot} {ys zs : List (Write Img)} {p : Path}

lemma Present.mono (h : Present database ys p) (hsub : ys ⊆ zs) : Present database zs p :=
  h.imp_right fun ⟨y, hy, hyp⟩ => ⟨y, hsub hy, hyp⟩

/-- Where all leaves are at one depth, a write that arrives removes none. -/
lemma present_set {x : Write Img}
    (hdepth : ∀ p v, database.get p = some v → p.length = x.path.length) :
    Present (database.set x.path x.value) ys p ↔ Present database (x :: ys) p := by
  unfold Present
  refine ⟨?_, ?_⟩
  · rintro (⟨v, hv⟩ | ⟨y, hy, hyp⟩)
    · rcases PathStore.get_set_eq_some hv with ⟨hp, -⟩ | ⟨-, hv⟩
      · exact Or.inr ⟨x, List.mem_cons_self, hp.symm⟩
      · exact Or.inl ⟨v, hv⟩
    · exact Or.inr ⟨y, List.mem_cons_of_mem x hy, hyp⟩
  · rintro (⟨v, hv⟩ | ⟨y, hy, hyp⟩)
    · by_cases hp : x.path = p
      · subst hp
        exact Or.inl ⟨x.value, PathStore.get_set_self ..⟩
      · refine Or.inl ⟨v, ?_⟩
        rw [PathStore.get_set_of_apart _ (Apart.of_length_eq (hdepth p v hv).symm hp), hv]
    · rcases List.mem_cons.mp hy with rfl | hy
      · subst hyp
        exact Or.inl ⟨y.value, PathStore.get_set_self ..⟩
      · exact Or.inr ⟨y, hy, hyp⟩

/-- What is shown has the leaves of the database and of the writes. -/
lemma present_of_shown {v : Value} (h : (shown database ys).get p = some v) :
    database.get p = some v ∨ ∃ y ∈ ys, y.path = p ∧ y.value = v := by
  induction ys generalizing database with
  | nil => exact Or.inl h
  | cons y ys ih =>
    rcases ih h with h | ⟨z, hz, hzp⟩
    · rcases PathStore.get_set_eq_some h with ⟨rfl, rfl⟩ | ⟨-, h⟩
      · exact Or.inr ⟨y, List.mem_cons_self, rfl, rfl⟩
      · exact Or.inl h
    · exact Or.inr ⟨z, List.mem_cons_of_mem y hz, hzp⟩

lemma shown_of_present {n : ℕ} (hdepth : ∀ p v, database.get p = some v → p.length = n)
    (hys : ∀ y ∈ ys, y.path.length = n) (h : Present database ys p) :
    ∃ v, (shown database ys).get p = some v := by
  induction ys generalizing database with
  | nil =>
    rcases h with h | ⟨y, hy, -⟩
    · exact h
    · simp at hy
  | cons y ys ih =>
    have hy : y.path.length = n := hys y List.mem_cons_self
    change ∃ v, (shown (database.set y.path y.value) ys).get p = some v
    refine ih ?_
      (fun z hz => hys z (List.mem_cons_of_mem y hz)) ?_
    · intro q v hv
      rcases PathStore.get_set_eq_some hv with ⟨rfl, -⟩ | ⟨-, hv⟩
      · exact hy
      · exact hdepth q v hv
    · exact (present_set fun q v hv => (hdepth q v hv).trans hy.symm).mpr h

/-! ### Steps -/

variable {w t : World Img}

lemma ordered_init (currentUser : ℕ → Option User) : Ordered (init currentUser : World Img) := by
  refine ⟨fun device ys hys => ?_, by simp [init]⟩
  obtain rfl := List.prefix_nil.mp hys
  intro r h
  simp [Present, init] at h

/-- New writes keep the order when the url among them comes to a node with its fields. -/
lemma Ordered.issue (hw : Ordered w) {device : ℕ} {ws : List (Write Img)}
    (hws : ∀ y ∈ ws, ∀ r, y.path = r ++ [urlKey] → ∀ key ∈ fieldKeys,
      Present w.database (w.outbox device) (r ++ [key])) :
    Ordered (w.issue device ws) := by
  refine ⟨fun dev ys hys => ?_, fun u hu key hkey => ?_⟩
  · by_cases hdev : dev = device
    · subst hdev
      have hys' : ys <+: w.outbox dev ++ ws := by simpa [World.issue] using hys
      rcases List.prefix_or_prefix_of_prefix hys' (List.prefix_append _ _) with hpre | ⟨cs, rfl⟩
      · exact hw.prefixes dev ys hpre
      · have hcs : cs <+: ws := (List.prefix_append_right_inj _).mp hys'
        intro r hr key hkey
        refine Present.mono ?_ (List.subset_append_left (w.outbox dev) cs)
        rcases hr with hr | ⟨y, hy, hyr⟩
        · exact hw.prefixes dev _ (List.prefix_refl _) r (Or.inl hr) key hkey
        · rcases List.mem_append.mp hy with hy | hy
          · exact hw.prefixes dev _ (List.prefix_refl _) r (Or.inr ⟨y, hy, hyr⟩) key hkey
          · exact hws y (hcs.subset hy) r hyr key hkey
    · refine hw.prefixes dev ys ?_
      simpa [World.issue, Function.update_of_ne hdev] using hys
  · refine (hw.uploads u hu key hkey).mono fun y hy => ?_
    exact mem_outbox_append.mpr (Or.inl hy)

lemma Ordered.goesOn (hw : Ordered w) (h : GoesOn w t) : Ordered t := by
  refine ⟨fun device ys hys => ?_, fun x hx key hkey => ?_⟩
  · rw [h.outbox] at hys
    rw [h.database]
    exact hw.prefixes device ys hys
  · obtain ⟨y, hy, hyx⟩ := h.uploads x hx
    rw [h.database, h.outbox, hyx.device, hyx.eventRef]
    exact hw.uploads y hy key hkey

lemma Ordered.addDetection (hw : Ordered w) {device : ℕ} {d : Detection Img}
    (h : addDetection w device d = some t) : Ordered t := by
  obtain ⟨p, us, hp, hus, rfl⟩ := addDetection_eq_some h
  have hurl : ∀ y ∈ fieldWrites d p, ∀ r, y.path ≠ r ++ [urlKey] := by
    intro y hy r hyr
    have hmem := List.mem_map_of_mem (f := Write.path) hy
    rw [paths_fieldWrites, hyr] at hmem
    obtain ⟨key, hkey, heq⟩ := List.mem_map.mp hmem
    obtain rfl : key = urlKey := by simpa using (List.append_inj' heq rfl).2
    exact urlKey_notMem_fieldKeys hkey
  have hissue : Ordered (w.issue device (fieldWrites d p)) :=
    hw.issue fun y hy r hyr => absurd hyr (hurl y hy r)
  refine ⟨hissue.prefixes, fun u hu key hkey => ?_⟩
  rcases List.mem_append.mp hu with hu | hu
  · exact hissue.uploads u hu key hkey
  · obtain ⟨rfl, rfl, -, hfits⟩ := mem_putData hp hus hu
    obtain rfl : u.eventRef = p := Option.some.inj (hfits.event.symm.trans hp)
    have hmem : u.eventRef ++ [key] ∈ (fieldWrites u.detection u.eventRef).map Write.path := by
      rw [paths_fieldWrites]
      exact List.mem_map_of_mem hkey
    obtain ⟨y, hy, hyp⟩ := List.mem_map.mp hmem
    exact Or.inr ⟨y, mem_outbox_append.mpr (Or.inr ⟨rfl, hy⟩), hyp⟩

/-- The oldest write of a device arrives: it is shown to all now. -/
lemma Ordered.apply {n : ℕ} (hw : Ordered w)
    (hdepth : ∀ p v, w.database.get p = some v → p.length = n)
    (hout : ∀ device, ∀ x ∈ w.outbox device, x.path.length = n) (device : ℕ) :
    Ordered (apply w device) := by
  unfold FirebaseHelper.apply
  split
  · exact hw
  · rename_i x xs hx
    have hset : ∀ {ys : List (Write Img)} {p : Path},
        Present (w.database.set x.path x.value) ys p ↔ Present w.database (x :: ys) p :=
      present_set fun p v hv => (hdepth p v hv).trans (hout device x (by simp [hx])).symm
    refine ⟨fun dev ys hys => ?_, fun u hu key hkey => ?_⟩
    · intro r hr key hkey
      rw [hset] at hr ⊢
      by_cases hdev : dev = device
      · subst hdev
        have hpre : x :: ys <+: w.outbox dev := by
          rw [hx]
          exact List.cons_prefix_cons.mpr ⟨rfl, by simpa using hys⟩
        exact hw.prefixes dev _ hpre r hr key hkey
      · have hpre : ys <+: w.outbox dev := by
          simpa [Function.update_of_ne hdev] using hys
        have hone : [x] <+: w.outbox device := by
          rw [hx]
          exact List.cons_prefix_cons.mpr ⟨rfl, List.nil_prefix⟩
        -- the url is made by the arriving write, or was there for `dev` before
        rcases hr with hr | ⟨y, hy, hyr⟩
        · exact (hw.prefixes dev ys hpre r (Or.inl hr) key hkey).mono (List.subset_cons_self x ys)
        · rcases List.mem_cons.mp hy with rfl | hy
          · refine (hw.prefixes device _ hone r (Or.inr ⟨y, by simp, hyr⟩) key hkey).mono ?_
            simp
          · exact (hw.prefixes dev ys hpre r (Or.inr ⟨y, hy, hyr⟩) key hkey).mono
              (List.subset_cons_self x ys)
    · rw [hset]
      refine (hw.uploads u hu key hkey).mono fun y hy => ?_
      by_cases hdev : u.device = device
      · rw [hdev, hx] at hy
        simpa [hdev] using hy
      · exact List.mem_cons_of_mem _ (by simpa [Function.update_of_ne hdev] using hy)

lemma Ordered.urlDone (hw : Ordered w) (i : ℕ) : Ordered (urlDone cloud w i) := by
  unfold FirebaseHelper.urlDone
  split
  · exact hw
  · rename_i u hu
    have hmem := (uploadAt_eq_some hu).1
    refine (hw.goesOn (goesOn_set hmem (u.same_located _))).issue fun y hy r hyr key hkey => ?_
    rw [urlWrites_located, List.mem_singleton] at hy
    subst hy
    obtain rfl : u.eventRef = r := (List.append_inj' hyr rfl).1
    exact hw.uploads u (List.mem_of_getElem? hmem) key hkey

/-- A login that is one key names a node two keys below the root. -/
lemma length_nodePath {d : Detection Img} (hv : FValidation.isValidPathString d.login)
    (hlogin : '/' ∉ d.login) : (nodePath d).length = 3 := by
  have hne : d.login ≠ [] := (FValidation.isValidPathString_iff.mp hv).1
  rw [nodePath, Pieces.pieces_eq_singleton hlogin hne]
  rfl

/-- All writes go to one depth. -/
lemma length_of_issued (hw : Filed cloud w) (hlogin : ∀ d ∈ w.added, '/' ∉ d.login) :
    ∀ x ∈ w.issued, x.path.length = 4 := by
  intro x hx
  obtain ⟨hadd, r, key, hr, hxp, -⟩ := hw.issued x hx
  obtain ⟨hv, rfl⟩ := (eventRef_eq_some (hw.built _ hadd)).mp hr
  rw [hxp, List.length_append, length_nodePath hv (hlogin _ hadd)]
  rfl

lemma length_of_get (hw : Filed cloud w) (hlogin : ∀ d ∈ w.added, '/' ∉ d.login) {p : Path}
    {v : Value} (h : w.database.get p = some v) : p.length = 4 := by
  obtain ⟨x, hx, rfl, -⟩ := hw.database p v h
  exact length_of_issued hw hlogin x hx

lemma Ordered.step (hfiled : Filed cloud w) (hlogin : ∀ d ∈ w.added, '/' ∉ d.login)
    (hw : Ordered w) {a : Act Img} (h : step cloud w a = some t) : Ordered t := by
  obtain ⟨device, now, image, score, d, -, -, hadd⟩ | ⟨device, -, rfl⟩ | ⟨i, -, rfl⟩ | hgo :=
    step_cases h
  · exact hw.addDetection hadd
  · exact hw.apply (fun p v hv => length_of_get hfiled hlogin hv)
      (fun dev x hx => length_of_issued hfiled hlogin x (hfiled.outbox dev x hx)) device
  · exact hw.urlDone i
  · exact hw.goesOn hgo

theorem ordered_of_run {currentUser : ℕ → Option User} {as : List (Act Img)}
    (h : run (step cloud) (init currentUser) as = some t)
    (hlogin : ∀ d ∈ t.added, '/' ∉ d.login) : Ordered t := by
  have hinv : Filed cloud t ∧ Ordered t := by
    refine run_inv_inherited (I := fun w => Filed cloud w ∧ Ordered w)
      (P := fun w => ∀ d ∈ w.added, '/' ∉ d.login)
      (fun w a u hstep hu d hd => ?_) (fun w a u ⟨hw, ho⟩ hlogin hstep => ?_)
      (fun _ => ⟨filed_init currentUser, ordered_init currentUser⟩) h hlogin
    · exact hu d ((added_step hstep).subset hd)
    · exact ⟨hw.step hstep, ho.step hw hlogin hstep⟩
  exact hinv.2

/-! ### What is shown -/

/-- The database, or the database with the first pending writes of a device. -/
def Seen (w : World Img) (s : DataSnapshot) : Prop :=
  ∃ device ys, ys <+: w.outbox device ∧ s = shown w.database ys

lemma seen_database (w : World Img) : Seen w w.database := ⟨0, [], List.nil_prefix, rfl⟩

/-- The leaves of what is shown are fields of detections. -/
lemma Seen.describes {s : DataSnapshot} (hs : Seen w s) (hw : Filed cloud w) {v : Value}
    (h : s.get p = some v) : ∃ d ∈ w.added, Describes cloud d p v := by
  obtain ⟨device, ys, hys, rfl⟩ := hs
  have hx : ∃ x ∈ w.issued, x.path = p ∧ x.value = v := by
    rcases present_of_shown h with h | ⟨y, hy, hyp⟩
    · exact hw.database p v h
    · exact ⟨y, hw.outbox device y (hys.subset hy), hyp⟩
  obtain ⟨x, hx, rfl, rfl⟩ := hx
  obtain ⟨hadd, hdesc⟩ := hw.issued x hx
  exact ⟨x.detection, hadd, hdesc⟩

/-- The leaf under a key of a node is the field of some detection under that key. -/
lemma Seen.fieldOf {s : DataSnapshot} (hs : Seen w s) (hw : Filed cloud w) {r : Path} {key : Text}
    {v : Value} (h : s.get (r ++ [key]) = some v) :
    ∃ d ∈ w.added, FirebaseHelper.fieldOf cloud d key = some v := by
  obtain ⟨d, hd, r', key', -, heq, hv⟩ := hs.describes hw h
  obtain rfl : key = key' := by simpa using (List.append_inj' heq rfl).2
  exact ⟨d, hd, hv⟩

/-- Where a url is shown, all other fields are. -/
lemma Seen.get_field {s : DataSnapshot} (hs : Seen w s) (hw : Filed cloud w) (ho : Ordered w)
    (hlogin : ∀ d ∈ w.added, '/' ∉ d.login) {r : Path} {v : Value}
    (h : s.get (r ++ [urlKey]) = some v) (key : Text) (hkey : key ∈ fieldKeys) :
    ∃ v, s.get (r ++ [key]) = some v := by
  obtain ⟨device, ys, hys, rfl⟩ := hs
  have hurl : Present w.database ys (r ++ [urlKey]) :=
    (present_of_shown h).imp (fun h => ⟨v, h⟩) fun ⟨y, hy, hyp, _⟩ => ⟨y, hy, hyp⟩
  refine shown_of_present (n := 4) (fun p v hv => length_of_get hw hlogin hv) ?_
    (ho.prefixes device ys hys r hurl key hkey)
  exact fun y hy => length_of_issued hw hlogin y (hw.outbox device y (hys.subset hy))

/-- A node that is shown with a url can be read. -/
lemma Seen.readable {s : DataSnapshot} (hs : Seen w s) (hw : Filed cloud w) (ho : Ordered w)
    (hlogin : ∀ d ∈ w.added, '/' ∉ d.login) {r : Path} {v : Value}
    (h : s.get (r ++ [urlKey]) = some v) :
    ∃ millis score school url, Readable cloud (s.below r) millis score school url := by
  obtain ⟨vm, hm⟩ := hs.get_field hw ho hlogin h millisKey (by simp [fieldKeys])
  obtain ⟨vs, hsc⟩ := hs.get_field hw ho hlogin h scoreKey (by simp [fieldKeys])
  obtain ⟨vc, hsch⟩ := hs.get_field hw ho hlogin h schoolKey (by simp [fieldKeys])
  obtain ⟨d₁, -, h₁⟩ := hs.fieldOf hw hm
  obtain ⟨d₂, -, h₂⟩ := hs.fieldOf hw hsc
  obtain ⟨d₃, -, h₃⟩ := hs.fieldOf hw hsch
  obtain ⟨d₄, hd₄, h₄⟩ := hs.fieldOf hw h
  obtain rfl : .num d₁.millis = vm := Option.some.inj h₁
  obtain rfl : .num d₂.score.value = vs := Option.some.inj h₂
  obtain rfl : .text d₃.school = vc := Option.some.inj h₃
  obtain ⟨o, -, rfl⟩ := Option.map_eq_some_iff.mp h₄
  refine ⟨d₁.millis, d₂.score, d₃.school, (cloud.downloadURL o).absoluteString, ?_⟩
  refine ⟨cloud.accepts_downloadURL o, ?_, ?_, ?_, ?_⟩ <;> rw [PathStore.get_below] <;> assumption

/-- In what is shown a node has no more than leaves. -/
lemma Seen.get_url {s : DataSnapshot} (hs : Seen w s) (hw : Filed cloud w)
    (hlogin : ∀ d ∈ w.added, '/' ∉ d.login) {r : Path} (hr : r.length = 3)
    (h : DataSnapshot.hasChild (s.below r) urlKey) : ∃ v, s.get (r ++ [urlKey]) = some v := by
  obtain ⟨q, v, hv⟩ := PathStore.exists_iff.mp (of_decide_eq_true h)
  rw [PathStore.get_below, PathStore.get_below] at hv
  obtain ⟨d, hd, r', key, hr', heq, -⟩ := hs.describes hw hv
  obtain ⟨hvalid, rfl⟩ := (eventRef_eq_some (hw.built d hd)).mp hr'
  have hlen := congrArg List.length heq
  simp only [List.length_append, length_nodePath hvalid (hlogin d hd), hr, List.length_cons,
    List.length_nil] at hlen
  obtain rfl : q = [] := List.eq_nil_of_length_eq_zero (by omega)
  exact ⟨v, by simpa using hv⟩

/-- **Half-written nodes are never read**: in every run, in whatever a device is shown at any
time, an event node that has a url has all its fields with their types, so no callback of an
observer of a history traps. -/
theorem history_never_traps {currentUser : ℕ → Option User} {as : List (Act Img)}
    (hrun : run (step cloud) (init currentUser) as = some t)
    (hlogin : ∀ d ∈ t.added, '/' ∉ d.login) {s : DataSnapshot} (hs : Seen t s) (login : Text) :
    (∀ key, DataSnapshot.hasChild (s.below [users, login, key]) urlKey →
      ∃ millis score school url,
        Readable cloud (s.below [users, login, key]) millis score school url) ∧
    ∀ (h : History Img) currentUser image,
      (observer cloud h ⟨currentUser, image, s.below [users, login]⟩).isSome := by
  have hw : Filed cloud t := filed_of_run hrun
  have ho := ordered_of_run hrun hlogin
  have hread : ∀ key, DataSnapshot.hasChild (s.below [users, login, key]) urlKey →
      ∃ millis score school url,
        Readable cloud (s.below [users, login, key]) millis score school url := by
    intro key hurl
    obtain ⟨v, hv⟩ := hs.get_url hw hlogin rfl hurl
    exact hs.readable hw ho hlogin hv
  refine ⟨hread, fun h cu image => observer_isSome h (rows_isSome_iff.mpr fun rest hrest => ?_)⟩
  obtain ⟨hall, hurl⟩ := List.mem_filter.mp hrest
  obtain ⟨key, -, rfl⟩ := DataSnapshot.mem_allObjects.mp hall
  rw [PathStore.below_below] at hurl ⊢
  exact hread key hurl

/-- A device with its own url pending is shown it with the rest of the node; the other device
is shown the database, without the url. -/
theorem own_url_never_traps :
    ∃ t, run (step Cloud.appBucket) (init fun _ => some ada) ((twoCalls (1 / 1000)).take 8) =
        some t ∧
      ∀ s ∈ [t.database, shown t.database (t.outbox 1)], ∀ (h : History ℕ) currentUser image,
        (observer Cloud.appBucket h
          ⟨currentUser, image, s.below [users, "ada".toList]⟩).isSome := by
  have hrun : (run (step Cloud.appBucket) (init fun _ => some ada)
      ((twoCalls (1 / 1000)).take 8)).any fun t => ∀ d ∈ t.added, '/' ∉ d.login := by
    decide +kernel
  obtain ⟨t, ht, hlogin⟩ := (Option.any_eq_true _ _).mp hrun
  refine ⟨t, ht, fun s hs => (history_never_traps ht (of_decide_eq_true hlogin) ?_ _).2⟩
  simp only [List.mem_cons, List.not_mem_nil, or_false] at hs
  rcases hs with rfl | rfl
  · exact seen_database t
  · exact ⟨1, t.outbox 1, List.prefix_refl _, rfl⟩

end Solta.HalfWritten
