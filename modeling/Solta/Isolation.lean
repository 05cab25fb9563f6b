import Solta.Provenance

/-!
What two accounts see of each other.

The login of an account is the local part of its e-mail, so accounts of different domains
share a login, and a slash in a login puts one account below another. Two accounts are
isolated in every run when the database refuses the login of one of them, or when the names
between the slashes of the two, their dots deleted, do not begin with each other, and only
then.
-/

namespace Solta.Isolation

open Lib Lib.Run FirebaseHelper

variable {Img : Type} {cloud : Cloud}

/-- The account a detection is filed for. -/
def emailOf (d : Detection Img) : Option Text := d.user.bind User.email

def account (email : Text) : User := ⟨some email⟩

/-! ### Addresses -/

/-- What is before the first at sign of an e-mail, not only dots, and what is after it. -/
structure Address where
  localPart : Text
  domain : Text
  at_notMem : '@' ∉ localPart
  named : removing '.' localPart ≠ []

namespace Address

def email (a : Address) : Text := a.localPart ++ '@' :: a.domain

/-- The characters other than dots for which the database refuses a login. -/
def refused : Text := "[]#$".toList

/-- The database takes the login. -/
def Taken (a : Address) : Prop := ∀ c ∈ a.localPart, c ∉ refused

instance (a : Address) : Decidable a.Taken := inferInstanceAs (Decidable (∀ _ ∈ _, _))

/-- The names between the slashes of the local part, its dots deleted. -/
def names (a : Address) : Path := pieces '/' (removing '.' a.localPart)

lemma getLoginFromEmail_email (a : Address) :
    Detection.getLoginFromEmail a.email = some (removing '.' a.localPart) :=
  getLoginFromEmail_append a.at_notMem a.named a.domain

lemma isValidPathString_iff (a : Address) :
    FValidation.isValidPathString (removing '.' a.localPart) ↔ a.Taken := by
  have hchars : ∀ c, c ∈ FValidation.kInvalidPathCharacters ↔ c = '.' ∨ c ∈ refused := by
    simp [FValidation.kInvalidPathCharacters, refused]
    grind
  rw [FValidation.isValidPathString_iff, and_iff_right a.named]
  constructor
  · intro h c hc hbad
    have hdot : c ≠ '.' := by
      rintro rfl
      exact absurd hbad (by decide)
    exact h c (List.mem_filter.mpr ⟨hc, by simpa using hdot⟩) ((hchars c).mpr (.inr hbad))
  · intro h c hc hbad
    obtain ⟨hmem, hdot⟩ := List.mem_filter.mp hc
    rcases (hchars c).mp hbad with rfl | hbad
    · simp at hdot
    · exact h c hmem hbad

/-- **The path of an address**: the names of its local part below `users`, where the
database takes them. -/
theorem getUserRef_email (a : Address) {p : Path} :
    getUserRef (account a.email) = some p ↔ a.Taken ∧ p = users :: a.names := by
  unfold getUserRef account
  rw [Option.bind_some, a.getLoginFromEmail_email, Option.bind_some, userRef_eq_some,
    a.isValidPathString_iff]
  rfl

end Address

/-! ### Isolation -/

/-- Nothing of `e₁` is at or below the paths of `e₂`, its writes leave all there as it is,
and the history of `e₂` shows none of them. -/
structure Spares (e₁ e₂ : Text) (w : World Img) : Prop where
  nodes : ∀ q, getUserRef (account e₂) = some q →
    ∀ x ∈ w.issued, emailOf x.detection = some e₁ → Apart q x.path
  objects : ∀ q, getStorageRef (account e₂) = some q →
    ∀ u ∈ w.uploads, emailOf u.detection = some e₁ → ¬ q <+: u.imageStorageRef
  frame : ∀ q, getUserRef (account e₂) = some q →
    ∀ x ∈ w.issued, emailOf x.detection = some e₁ →
      ∀ (database : DataSnapshot) p,
        ((database.set x.path x.value).below q).get p = (database.below q).get p
  history : ∀ q, getUserRef (account e₂) = some q →
    ∀ p v, (w.database.below q).get p = some v →
      ∃ x ∈ w.issued, x.path = q ++ p ∧ x.value = v ∧ emailOf x.detection ≠ some e₁

def Isolated (e₁ e₂ : Text) (w : World Img) : Prop := Spares e₁ e₂ w ∧ Spares e₂ e₁ w

/-! ### Paths of an account -/

lemma getUserRef_eq_some {email : Text} {p : Path} :
    getUserRef (account email) = some p ↔
      ∃ login, Detection.getLoginFromEmail email = some login ∧ userRef login = some p := by
  unfold getUserRef account
  rw [Option.bind_some, Option.bind_eq_some_iff]

lemma getStorageRef_eq_some {email : Text} {p : Path} :
    getStorageRef (account email) = some p ↔
      ∃ login, Detection.getLoginFromEmail email = some login ∧
        p = users :: pieces '/' login := by
  unfold getStorageRef account
  rw [Option.bind_some, Option.map_eq_some_iff]
  simp only [userStorageRef_eq, eq_comm]

/-- A detection of an account with a node lies under the path of the account. -/
lemma getUserRef_of_eventRef {d : Detection Img} (hd : d.Built) {email : Text}
    (hemail : emailOf d = some email) {p : Path} (hp : eventRef d = some p) :
    getUserRef (account email) = some (users :: pieces '/' d.login) ∧
      p = (users :: pieces '/' d.login) ++ [d.getDate] := by
  obtain ⟨user, e, huser, he, hlogin⟩ := hd.login
  obtain ⟨hv, rfl⟩ := (eventRef_eq_some hd).mp hp
  unfold emailOf at hemail
  rw [huser, Option.bind_some, he, Option.some.injEq] at hemail
  subst hemail
  exact ⟨getUserRef_eq_some.mpr ⟨_, hlogin, userRef_eq_some.mpr ⟨hv, rfl⟩⟩, rfl⟩

/-! ### Logins the database does not take -/

/-- A login that is not empty and not valid has an invalid character, other than a dot. -/
lemma exists_invalid {login email : Text}
    (hlogin : Detection.getLoginFromEmail email = some login)
    (hv : ¬ FValidation.isValidPathString login) : ∃ c ∈ login, c ∈ Address.refused := by
  obtain ⟨hne, -, hdot⟩ := of_getLoginFromEmail hlogin
  simp only [FValidation.isValidPathString_iff, not_and, not_forall, not_not] at hv
  obtain ⟨c, hc, hbad⟩ := hv hne
  have hsplit : FValidation.kInvalidPathCharacters ⊆ '.' :: Address.refused := by decide
  refine ⟨c, hc, (List.mem_cons.mp (hsplit hbad)).resolve_left ?_⟩
  rintro rfl
  exact hdot hc

/-- The objects of a detection that could be filed have no such character in their paths. -/
lemma notMem_imageStorageRef {d : Detection Img} (hd : d.Built) {p o : Path}
    (hp : eventRef d = some p) (ho : imageStorageRef d = some o) {c : Char}
    (hc : c ∈ Address.refused) : ∀ s ∈ o, c ∉ s := by
  obtain ⟨hv, rfl⟩ := (eventRef_eq_some hd).mp hp
  obtain ⟨n, -, rfl⟩ := (imageStorageRef_eq_some hd).mp ho
  have hkey : ∀ k, FValidation.isValidKey k → c ∉ k := by
    intro k hk hck
    have hsub : Address.refused ⊆ FValidation.kInvalidKeyCharacters := by decide
    exact (FValidation.isValidKey_iff.mp hk).2 c hck (hsub hc)
  intro s hs hcs
  simp only [nodePath, List.mem_append, List.mem_cons, List.not_mem_nil, or_false] at hs
  rcases hs with ((rfl | hs) | rfl) | rfl
  · exact hkey users users_isValidKey hcs
  · have hsub : Address.refused ⊆ FValidation.kInvalidPathCharacters := by decide
    exact (FValidation.isValidPathString_iff.mp hv).2 c ((Pieces.of_mem_pieces hs).2.2 hcs)
      (hsub hc)
  · exact hkey _ hd.getDate_isValidKey hcs
  · have hother : Address.refused.all fun c => ¬ c.isDigit ∧ c ≠ '-' ∧ c ∉ ".jpg".toList := by
      decide
    obtain ⟨h1, h2, h3⟩ := of_decide_eq_true (List.all_eq_true.mp hother c hc)
    simp only [imageName, List.mem_append] at hcs
    rcases hcs with (hcs | hcs) | hcs
    · split at hcs <;> simp_all
    · exact h1 (Nat.isDigit_of_mem_toDigits (by omega) (by omega) hcs)
    · exact h3 hcs

/-! ### Accounts whose paths are apart -/

variable {e₁ e₂ : Text} {w : World Img}

/-- Writes of accounts whose paths are apart are apart from each other's paths. -/
lemma spares_of_apart (hw : Filed cloud w)
    (h : ∀ p q, getUserRef (account e₁) = some p → getUserRef (account e₂) = some q → Apart p q) :
    Spares e₁ e₂ w := by
  have hnodes : ∀ q, getUserRef (account e₂) = some q →
      ∀ x ∈ w.issued, emailOf x.detection = some e₁ → Apart q x.path := by
    intro q hq x hx hemail
    obtain ⟨hadd, hdesc⟩ := hw.issued x hx
    obtain ⟨p, key, hp, hxp, -⟩ := hdesc
    obtain ⟨hown, rfl⟩ := getUserRef_of_eventRef (hw.built _ hadd) hemail hp
    rw [hxp, List.append_assoc]
    exact (h _ q hown hq).symm.extend (List.prefix_refl q) (List.prefix_append _ _)
  refine ⟨hnodes, ?_, ?_, ?_⟩
  · intro q hq u hu hemail hpre
    obtain ⟨hadd, hfits⟩ := hw.uploads u hu
    have hd := hw.built _ hadd
    obtain ⟨l, hl, rfl⟩ := getStorageRef_eq_some.mp hq
    by_cases hv : FValidation.isValidPathString l
    · have hq' := getUserRef_eq_some.mpr ⟨l, hl, userRef_eq_some.mpr ⟨hv, rfl⟩⟩
      obtain ⟨hown, -⟩ := getUserRef_of_eventRef hd hemail hfits.event
      obtain ⟨n, -, ho⟩ := (imageStorageRef_eq_some hd).mp hfits.object
      rw [ho, nodePath, List.append_assoc] at hpre
      exact ((h _ _ hown hq').extend (List.prefix_append _ _) (List.prefix_refl _)).2 hpre
    · -- the path of a login that the database does not take has a piece no object has
      obtain ⟨c, hc, hbad⟩ := exists_invalid hl hv
      have hslash : c ≠ '/' := by
        rintro rfl
        exact absurd hbad (by decide)
      obtain ⟨s, hs, hcs⟩ := Pieces.exists_mem_pieces hc hslash
      exact notMem_imageStorageRef hd hfits.event hfits.object hbad s
        (hpre.subset (List.mem_cons_of_mem _ hs)) hcs
  · intro q hq x hx hemail database p
    have hapart := (hnodes q hq x hx hemail).symm
    rw [PathStore.get_below, PathStore.get_below, PathStore.get_set_of_apart]
    exact hapart.extend (List.prefix_refl _) (List.prefix_append q p)
  · intro q hq p v hv
    rw [PathStore.get_below] at hv
    obtain ⟨x, hx, hxp, hxv⟩ := hw.database _ v hv
    refine ⟨x, hx, hxp, hxv, fun hemail => ?_⟩
    have hapart := hnodes q hq x hx hemail
    rw [hxp] at hapart
    exact hapart.1 (List.prefix_append q p)

/-! ### Accounts whose paths are not apart -/

/-- Signing in and adding a detection without picture writes under the own path. -/
lemma exists_run_issued (cloud : Cloud) {email : Text} {p : Path}
    (hp : getUserRef (account email) = some p) :
    ∃ (as : List (Act Img)) (t : World Img) (x : Write Img),
      run (step cloud) (init fun _ => none) as = some t ∧ x ∈ t.issued ∧
        emailOf x.detection = some email ∧ p <+: x.path := by
  obtain ⟨l, hl, hp⟩ := getUserRef_eq_some.mp hp
  obtain ⟨hv, rfl⟩ := userRef_eq_some.mp hp
  obtain ⟨d, hd⟩ : ∃ d : Detection Img,
      Detection.ofImage (some (account email)) 0 none 0 = some d := by
    simp [Detection.ofImage, account, hl]
  obtain ⟨hbuilt, huser, -, himage, -⟩ := Detection.ofImage_eq_some hd
  have hemail : emailOf d = some email := by simp [emailOf, huser, account]
  have hlogin : d.login = l := by
    obtain ⟨user, e, hu, he, hle⟩ := hbuilt.login
    rw [emailOf, hu, Option.bind_some, he, Option.some.injEq] at hemail
    subst hemail
    exact Option.some.inj (hle.symm.trans hl)
  subst hlogin
  have hevent := (eventRef_eq_some hbuilt).mpr ⟨hv, rfl⟩
  have hadd : ∃ t,
      addDetection (signIn (init fun _ => none) 0 (some (account email))) 0 d = some t ∧
        setValue d (nodePath d) millisKey (.num d.millis) ∈ t.issued := by
    simp [addDetection, hevent, putData, himage, World.issue, fieldWrites]
  obtain ⟨t, ht, hmem⟩ := hadd
  refine ⟨[.signIn 0 (some (account email)), .detect 0 0 none 0], t, _, ?_, hmem, hemail, ?_⟩
  · have hstep : step cloud (signIn (init fun _ => none) 0 (some (account email)))
        (.detect 0 0 none 0) = some t := by
      simp only [step, detect, signIn, Function.update_self, hd, Option.bind_some]
      exact ht
    rw [run_cons, step, Option.bind_some, run_cons, hstep]
    rfl
  · simp only [setValue, nodePath, List.append_assoc]
    exact List.prefix_append _ _

/-- Accounts that are isolated in every run have paths that are apart. -/
lemma apart_of_isolated
    (h : ∀ (as : List (Act Img)) t,
      run (step cloud) (init fun _ => none) as = some t → Isolated e₁ e₂ t)
    {p q : Path} (hp : getUserRef (account e₁) = some p) (hq : getUserRef (account e₂) = some q) :
    Apart p q := by
  refine ⟨fun hpq => ?_, fun hqp => ?_⟩
  · obtain ⟨as, t, x, hrun, hx, hemail, hpre⟩ := exists_run_issued cloud hq
    exact ((h as t hrun).2.nodes p hp x hx hemail).1 (hpq.trans hpre)
  · obtain ⟨as, t, x, hrun, hx, hemail, hpre⟩ := exists_run_issued cloud hp
    exact ((h as t hrun).1.nodes q hq x hx hemail).1 (hqp.trans hpre)

end Solta.Isolation
