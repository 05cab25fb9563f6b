import Solta.Login

/-!
Which addresses have a usable login.

The login of an address is its local part without the dots, which the database would not
take. A local part may hold three more characters that spoil the key: the database refuses
two of them, and the third separates keys. Without these the login is one key.
-/

namespace Solta.Accounts

open Lib Lib.Pieces

/-- The characters of an atom; the two escapes are the braces. -/
def isAtext (c : Char) : Bool :=
  c.isAlphanum || c ∈ "!#$%&'*+-/=?^_`\x7b|\x7d~".toList

def isHostCharacter (c : Char) : Bool := c.isAlphanum || c = '-'

/-- Words of such characters with single dots between them. -/
def Dotted (ok : Char → Bool) (s : Text) : Prop := ∀ q ∈ s.splitOn '.', q ≠ [] ∧ q.all ok

instance (ok : Char → Bool) (s : Text) : Decidable (Dotted ok s) :=
  inferInstanceAs (Decidable (∀ q ∈ _, _))

def DotAtom (s : Text) : Prop := Dotted isAtext s
def HostName (s : Text) : Prop := Dotted isHostCharacter s

instance (s : Text) : Decidable (DotAtom s) := inferInstanceAs (Decidable (Dotted _ _))
instance (s : Text) : Decidable (HostName s) := inferInstanceAs (Decidable (Dotted _ _))

/-- The characters of an atom that the database refuses in a key. -/
def spoilers : Text := "#$/".toList

/-- The login of the address is its local part without the dots, it is one valid key, and the
account's node is a child of `users`. -/
structure Usable (localPart email : Text) : Prop where
  login : Detection.getLoginFromEmail email = some (removing '.' localPart)
  key : FValidation.isValidKey (removing '.' localPart)
  userRef : userRef (removing '.' localPart) = some [users, removing '.' localPart]
  getUserRef : FirebaseHelper.getUserRef ⟨some email⟩ = some [users, removing '.' localPart]

variable {ok : Char → Bool} {s : Text}

/-- Every character of a dotted text is a dot or allowed. -/
lemma Dotted.mem (h : Dotted ok s) {c : Char} (hc : c ∈ s) : c = '.' ∨ ok c := by
  by_cases hdot : c = '.'
  · exact Or.inl hdot
  · obtain ⟨q, hq, hcq⟩ := exists_mem_pieces hc hdot
    have hall := (h q (List.mem_of_mem_filter hq)).2
    exact Or.inr (List.all_eq_true.mp hall c hcq)

/-- A dotted text has more than dots. -/
lemma Dotted.removing_ne_nil (h : Dotted ok s) : removing '.' s ≠ [] := by
  obtain ⟨q, hq⟩ := List.exists_mem_of_ne_nil _ (List.splitOn_ne_nil '.' s)
  have hne := (h q hq).1
  have hpiece : q ∈ pieces '.' s := List.mem_filter.mpr ⟨hq, by simpa using hne⟩
  obtain ⟨-, hdot, hsub⟩ := of_mem_pieces hpiece
  obtain ⟨c, hc⟩ := List.exists_mem_of_ne_nil _ hne
  have hcdot : c ≠ '.' := fun heq => hdot (heq ▸ hc)
  exact List.ne_nil_of_mem (List.mem_filter.mpr ⟨hsub hc, by simpa using hcdot⟩)

lemma DotAtom.at_notMem (h : DotAtom s) : '@' ∉ s := by
  intro hat
  rcases Dotted.mem h hat with hdot | hok
  · exact absurd hdot (by decide)
  · exact absurd hok (by decide)

/-- An atom character that is no key character is one of the three. -/
lemma mem_spoilers {c : Char} (h : isAtext c) (hbad : c ∈ FValidation.kInvalidKeyCharacters) :
    c = '.' ∨ c ∈ spoilers := by
  have hall : FValidation.kInvalidKeyCharacters.all fun x =>
      !isAtext x || x = '.' || x ∈ spoilers := by decide
  have hx := List.all_eq_true.mp hall c hbad
  simpa [h] using hx

/-- The login is a valid key exactly when the local part has none of the three. -/
lemma isValidKey_removing_iff (h : DotAtom s) :
    FValidation.isValidKey (removing '.' s) ↔ ∀ c ∈ s, c ∉ spoilers := by
  rw [FValidation.isValidKey_iff, and_iff_right h.removing_ne_nil]
  constructor
  · intro hkey c hc hbad
    have hsub : spoilers.all fun x => x ∈ FValidation.kInvalidKeyCharacters && x ≠ '.' := by
      decide
    have hboth := List.all_eq_true.mp hsub c hbad
    rw [Bool.and_eq_true, decide_eq_true_iff, decide_eq_true_iff] at hboth
    exact hkey c (List.mem_filter.mpr ⟨hc, by simpa using hboth.2⟩) hboth.1
  · intro hall c hc hbad
    obtain ⟨hcs, hdot⟩ := List.mem_filter.mp hc
    replace hdot : c ≠ '.' := by simpa using hdot
    have hok : isAtext c := (Dotted.mem h hcs).resolve_left hdot
    exact hall c hcs ((mem_spoilers hok hbad).resolve_left hdot)

/-- **Which accounts have a usable key.** The login of an address is always its local part
without the dots; it is one valid key, and names a child of `users`, exactly when the local
part has no number sign, no dollar sign and no slash. -/
theorem usable_iff (localPart domain : Text) (hlocal : DotAtom localPart) :
    Detection.getLoginFromEmail (localPart ++ '@' :: domain) = some (removing '.' localPart) ∧
      (Usable localPart (localPart ++ '@' :: domain) ↔ ∀ c ∈ localPart, c ∉ spoilers) := by
  have hlogin := getLoginFromEmail_append hlocal.at_notMem hlocal.removing_ne_nil domain
  refine ⟨hlogin, fun h => (isValidKey_removing_iff hlocal).mp h.key, fun h => ?_⟩
  have hkey := (isValidKey_removing_iff hlocal).mpr h
  have href : userRef (removing '.' localPart) = some [users, removing '.' localPart] := by
    refine userRef_eq_some.mpr ⟨FValidation.isValidPathString_of_key hkey, ?_⟩
    rw [pieces_eq_singleton (FValidation.slash_notMem_of_key hkey)
      (FValidation.ne_nil_of_key hkey)]
  refine ⟨hlogin, hkey, href, ?_⟩
  unfold FirebaseHelper.getUserRef
  rw [Option.bind_some, hlogin, Option.bind_some, href]

/-- An address with dots in both parts. -/
theorem usable_ada :
    Usable "ada.lovelace".toList "ada.lovelace@x.ca".toList := by
  have hgood : "ada.lovelace".toList.all fun c => c ∉ spoilers := by decide
  refine (usable_iff "ada.lovelace".toList "x.ca".toList (by decide)).2.mpr fun c hc => ?_
  exact of_decide_eq_true (List.all_eq_true.mp hgood c hc)

/-- **An account without a key**: the database refuses the number sign. -/
theorem not_always_usable :
    ¬ ∀ localPart domain : Text, DotAtom localPart → HostName domain →
      Usable localPart (localPart ++ '@' :: domain) := by
  intro h
  have hkey := (h "a#b".toList "x.ca".toList (by decide) (by decide)).key
  exact absurd hkey (by decide)

end Solta.Accounts
