import Solta.Lib.Pieces

/-!
Logins and the paths they name.

An account is known by its e-mail. `getLoginFromEmail` makes a login of it, and the login
names a node of the database and a folder of the storage under `users`. Raised exceptions
and traps are `none`.
-/

namespace Solta

open Lib Lib.Pieces

abbrev Text := List Char

/-- The keys from the root down to a node. -/
abbrev Path := List Text

/-- The user of `Auth`. -/
structure User where
  email : Option Text
  deriving DecidableEq

/-- `replacingOccurrences(of:with:)` with nothing to put in the place of `c`. -/
def removing (c : Char) (s : Text) : Text := s.filter (· ≠ c)

/-- `parts[0]` traps when there is no part. The method and the static function differ in
where the e-mail comes from, the method ignores its argument for the user's own. -/
def Detection.getLoginFromEmail (email : Text) : Option Text :=
  (pieces '@' (removing '.' email)).head?

namespace FValidation

def kInvalidPathCharacters : Text := "[].#$".toList
def kInvalidKeyCharacters : Text := "[].#$/".toList

def isValidPathString (pathString : Text) : Bool :=
  pathString ≠ [] && pathString.all fun c => c ∉ kInvalidPathCharacters

def isValidKey (key : Text) : Bool := key ≠ [] && key.all fun c => c ∉ kInvalidKeyCharacters

lemma isValidPathString_iff {s : Text} :
    isValidPathString s ↔ s ≠ [] ∧ ∀ c ∈ s, c ∉ kInvalidPathCharacters := by
  simp [isValidPathString]

lemma isValidKey_iff {s : Text} :
    isValidKey s ↔ s ≠ [] ∧ ∀ c ∈ s, c ∉ kInvalidKeyCharacters := by
  simp [isValidKey]

lemma isValidPathString_of_key {key : Text} (h : isValidKey key) : isValidPathString key := by
  obtain ⟨hne, hall⟩ := isValidKey_iff.mp h
  have hsub : kInvalidPathCharacters ⊆ kInvalidKeyCharacters := by decide
  exact isValidPathString_iff.mpr ⟨hne, fun c hc hmem => hall c hc (hsub hmem)⟩

lemma slash_notMem_of_key {key : Text} (h : isValidKey key) : '/' ∉ key :=
  fun hmem => (isValidKey_iff.mp h).2 '/' hmem (by decide)

lemma ne_nil_of_key {key : Text} (h : isValidKey key) : key ≠ [] := (isValidKey_iff.mp h).1

end FValidation

/-- `child` of a database reference: an invalid text raises, slashes separate keys. -/
def DatabaseReference.child (p : Path) (pathString : Text) : Option Path :=
  if FValidation.isValidPathString pathString then some (p ++ pieces '/' pathString) else none

/-- `child` of a storage reference, which raises nothing. -/
def StorageReference.child (p : Path) (path : Text) : Path := p ++ pieces '/' path

def users : Text := "users".toList

lemma users_isValidKey : FValidation.isValidKey users := by decide

/-- `ref.child("users").child("\(login)")`. -/
def userRef (login : Text) : Option Path :=
  (DatabaseReference.child [] users).bind fun ref => DatabaseReference.child ref login

/-- `storageRef.child("users").child("\(login)")`. -/
def userStorageRef (login : Text) : Path :=
  StorageReference.child (StorageReference.child [] users) login

namespace FirebaseHelper

def getUserRef (user : User) : Option Path :=
  user.email.bind fun email => (Detection.getLoginFromEmail email).bind userRef

def getStorageRef (user : User) : Option Path :=
  user.email.bind fun email => (Detection.getLoginFromEmail email).map userStorageRef

end FirebaseHelper

/-! ### Logins -/

lemma notMem_removing (c : Char) (s : Text) : c ∉ removing c s := by
  simp [removing]

lemma removing_append (c : Char) (s t : Text) :
    removing c (s ++ t) = removing c s ++ removing c t := List.filter_append ..

/-- **The login of an address** is its local part without the dots. -/
theorem getLoginFromEmail_append {l : Text} (hat : '@' ∉ l) (hne : removing '.' l ≠ [])
    (domain : Text) :
    Detection.getLoginFromEmail (l ++ '@' :: domain) = some (removing '.' l) := by
  unfold Detection.getLoginFromEmail
  have hat' : '@' ∉ removing '.' l := fun h => hat (List.mem_of_mem_filter h)
  have hcons : removing '.' ('@' :: domain) = '@' :: removing '.' domain := by
    simp [removing]
  rw [removing_append, hcons, head_pieces_append hat' hne]

/-- A login is not empty and holds neither a dot nor an at sign. -/
lemma of_getLoginFromEmail {email login : Text}
    (h : Detection.getLoginFromEmail email = some login) :
    login ≠ [] ∧ '@' ∉ login ∧ '.' ∉ login := by
  obtain ⟨hne, hat, hsub⟩ := of_mem_pieces (List.mem_of_head? h)
  exact ⟨hne, hat, fun hdot => notMem_removing _ _ (hsub hdot)⟩

/-! ### Paths -/

namespace DatabaseReference

lemma child_eq_some {p q : Path} {s : Text} :
    child p s = some q ↔ FValidation.isValidPathString s ∧ q = p ++ pieces '/' s := by
  unfold child
  split
  · rename_i h
    rw [Option.some.injEq, eq_comm]
    exact ⟨fun hq => ⟨h, hq⟩, fun hq => hq.2⟩
  · rename_i h
    exact ⟨fun hq => by simp at hq, fun hq => absurd hq.1 h⟩

/-- A valid key names a child of the node itself. -/
lemma child_key {key : Text} (h : FValidation.isValidKey key) (p : Path) :
    child p key = some (p ++ [key]) := by
  refine child_eq_some.mpr ⟨FValidation.isValidPathString_of_key h, ?_⟩
  rw [pieces_eq_singleton (FValidation.slash_notMem_of_key h) (FValidation.ne_nil_of_key h)]

end DatabaseReference

lemma StorageReference.child_key {key : Text} (h : FValidation.isValidKey key) (p : Path) :
    StorageReference.child p key = p ++ [key] := by
  unfold StorageReference.child
  rw [pieces_eq_singleton (FValidation.slash_notMem_of_key h) (FValidation.ne_nil_of_key h)]

lemma userRef_eq_some {login : Text} {p : Path} :
    userRef login = some p ↔
      FValidation.isValidPathString login ∧ p = users :: pieces '/' login := by
  unfold userRef
  rw [DatabaseReference.child_key users_isValidKey]
  exact DatabaseReference.child_eq_some

/-- The two trees name an account alike. -/
lemma userStorageRef_eq (login : Text) : userStorageRef login = users :: pieces '/' login := by
  unfold userStorageRef
  rw [StorageReference.child_key users_isValidKey]
  rfl

end Solta
