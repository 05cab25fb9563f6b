import Solta.Lib.Run
import Solta.Login
import Mathlib.Tactic.Common

/-!
The copies of the session.

Google's SDK, `LoginHelper` and Firebase's `Auth` each keep a current user. A Google callback
sets the first two and starts a Firebase sign-in, whose completion sets the third; the button
and `logOut` clear only the first. So the copies agree, once nothing is under way, exactly
when the last of all taps, sign-outs and callbacks is a callback and the last sign-in that
succeeded is that of its user.
-/

namespace Solta.Session

open Lib.Run

variable {Account : Type}

/-- The three copies, and the accounts of the Firebase sign-ins that are under way. -/
structure St (Account : Type) where
  gidUser : Option Account
  helperUser : Option Account
  authUser : Option Account
  pending : List Account

/-- Nobody is signed in. `LoginHelper.user` starts as a copy of Google's. -/
def init : St Account := ⟨none, none, none, []⟩

/-- A completion is that of a sign-in of the account it names. -/
inductive Act (Account : Type)
  | googleSignInDidTap
  | didSignIn (user : Option Account)
  | succeed (account : Account)
  | fail (account : Account)
  | logOut

/-- The button starts a Google sign-in, or signs out of Google. -/
def googleSignInDidTap (s : St Account) : St Account :=
  if s.gidUser.isNone then s else { s with gidUser := none }

/-- The copy `LoginHelper` keeps is Google's, which is the user of the callback. -/
def loginWithGoogle (s : St Account) (account : Account) : St Account :=
  { s with
    gidUser := some account
    helperUser := some account
    pending := s.pending ++ [account] }

/-- `sign(_:didSignInFor:withError:)` forces `user.authentication`. -/
def didSignIn (s : St Account) (user : Option Account) : Option (St Account) :=
  user.map (loginWithGoogle s)

/-- `LoginHelper.logOut`. -/
def logOut (s : St Account) : St Account := { s with gidUser := none }

/-- A completion is that of a sign-in under way. -/
def Genuine (s : St Account) : Act Account → Prop
  | .succeed account | .fail account => account ∈ s.pending
  | _ => True

/-- With no sign-in under way all copies are one. -/
def Agrees (s : St Account) : Prop :=
  s.pending = [] → s.gidUser = s.helperUser ∧ s.helperUser = s.authUser

section

variable [DecidableEq Account]

instance : DecidablePred (Agrees : St Account → Prop) :=
  fun _ => inferInstanceAs (Decidable (_ → _ ∧ _))

instance (s : St Account) : ∀ a, Decidable (Genuine s a)
  | .succeed _ | .fail _ => inferInstanceAs (Decidable (_ ∈ _))
  | .googleSignInDidTap | .didSignIn _ | .logOut => isTrue trivial

def fail (s : St Account) (account : Account) : St Account :=
  { s with pending := s.pending.erase account }

/-- The name `SetNameVC` shows, where `givenName` is that of the user's profile. -/
def username (givenName : Account → Option Text) (s : St Account) : Option Text :=
  s.helperUser.bind givenName

variable (givenName : Account → Option Text)

/-- A sign-in that succeeds shows `SetNameVC`, which forces the name. -/
def succeed (s : St Account) (account : Account) : Option (St Account) :=
  (username givenName s).map fun _ =>
    { s with authUser := some account, pending := s.pending.erase account }

def step (s : St Account) : Act Account → Option (St Account)
  | .googleSignInDidTap => some (googleSignInDidTap s)
  | .didSignIn user => didSignIn s user
  | .succeed account => succeed givenName s account
  | .fail account => some (fail s account)
  | .logOut => some (logOut s)

/-! ### What has happened so far -/

/-- Whom a tap, a sign-out or a callback leaves signed in to Google. -/
def Act.google : Act Account → Option (Option Account)
  | .googleSignInDidTap | .logOut => some none
  | .didSignIn user => some user
  | .succeed _ | .fail _ => none

/-- The user of a callback. -/
def Act.called : Act Account → Option Account
  | .didSignIn user => user
  | _ => none

/-- The account of a sign-in that succeeded. -/
def Act.succeeded : Act Account → Option Account
  | .succeed account => some account
  | _ => none

/-- What the last action with such a thing has of it. -/
def last {β : Type} (f : Act Account → Option β) (as : List (Act Account)) : Option β :=
  (as.filterMap f).getLast?

/-- The sign-ins under way after an action, from those under way before it. -/
def Act.after (accounts : List Account) : Act Account → List Account
  | .didSignIn user => accounts ++ user.toList
  | .succeed account | .fail account => accounts.erase account
  | .googleSignInDidTap | .logOut => accounts

def underWay (as : List (Act Account)) : List Account := as.foldl Act.after []

/-- No callback comes with an error, and the user of the last callback has a given name when a
sign-in succeeds. Once no sign-in is under way, either there was no callback, or the last of
the taps, sign-outs and callbacks is a callback and the last sign-in that succeeded is that of
its user. -/
structure Orderly (bs : List (Act Account)) (a : Act Account) : Prop where
  called : a ≠ .didSignIn none
  named : ∀ account, a = .succeed account → ((last Act.called bs).bind givenName).isSome
  settled : underWay (bs ++ [a]) = [] → last Act.called (bs ++ [a]) = none ∨
    ∃ account, last Act.google (bs ++ [a]) = some (some account) ∧
      last Act.succeeded (bs ++ [a]) = some account

omit [DecidableEq Account] in
lemma last_snoc {β : Type} (f : Act Account → Option β) (bs : List (Act Account))
    (a : Act Account) : last f (bs ++ [a]) = (f a).or (last f bs) := by
  unfold last
  rw [List.filterMap_append]
  cases h : f a <;> simp [h]

omit [DecidableEq Account] in
lemma last_snoc_of_none {β : Type} {f : Act Account → Option β} {a : Act Account}
    (ha : f a = none) (bs : List (Act Account)) : last f (bs ++ [a]) = last f bs := by
  rw [last_snoc, ha, Option.none_or]

lemma underWay_snoc (bs : List (Act Account)) (a : Act Account) :
    underWay (bs ++ [a]) = a.after (underWay bs) := by
  simp [underWay]

/-! ### The state after a run -/

/-- The copies are the last ones of their kind. -/
structure Follows (bs : List (Act Account)) (s : St Account) : Prop where
  gidUser : s.gidUser = (last Act.google bs).join
  helperUser : s.helperUser = last Act.called bs
  authUser : s.authUser = last Act.succeeded bs
  pending : s.pending = underWay bs
  called : s.gidUser ≠ none → s.helperUser = s.gidUser
  started : s.helperUser = none → s.pending = [] ∧ s.authUser = none

variable {givenName} {bs : List (Act Account)} {s t : St Account}

lemma follows_init : Follows [] (init : St Account) :=
  ⟨rfl, rfl, rfl, rfl, fun h => absurd rfl h, fun _ => ⟨rfl, rfl⟩⟩

omit [DecidableEq Account] in
/-- A tap leaves Google's copy empty, whether it was empty or not. -/
lemma googleSignInDidTap_eq (s : St Account) : googleSignInDidTap s = logOut s := by
  unfold googleSignInDidTap logOut
  split
  · rename_i h
    rw [← Option.isNone_iff_eq_none.mp h]
  · rfl

namespace Follows

lemma logOut (hs : Follows bs s) {a : Act Account} (ha : a = .googleSignInDidTap ∨ a = .logOut) :
    Follows (bs ++ [a]) (Session.logOut s) := by
  rcases ha with rfl | rfl
  all_goals
    refine ⟨by rw [last_snoc]; rfl, ?_, ?_, ?_, fun h => absurd rfl h, hs.started⟩
    · exact hs.helperUser.trans (last_snoc_of_none rfl bs).symm
    · exact hs.authUser.trans (last_snoc_of_none rfl bs).symm
    · rw [underWay_snoc]
      exact hs.pending

lemma loginWithGoogle (hs : Follows bs s) (account : Account) :
    Follows (bs ++ [.didSignIn (some account)]) (Session.loginWithGoogle s account) where
  gidUser := by
    rw [last_snoc]
    rfl
  helperUser := by
    rw [last_snoc]
    rfl
  authUser := hs.authUser.trans (last_snoc_of_none rfl bs).symm
  pending := by
    rw [underWay_snoc, ← hs.pending]
    rfl
  called := fun _ => rfl
  started := fun h => by simp [Session.loginWithGoogle] at h

lemma fail (hs : Follows bs s) (account : Account) :
    Follows (bs ++ [.fail account]) (Session.fail s account) where
  gidUser := hs.gidUser.trans (congrArg _ (last_snoc_of_none rfl bs).symm)
  helperUser := hs.helperUser.trans (last_snoc_of_none rfl bs).symm
  authUser := hs.authUser.trans (last_snoc_of_none rfl bs).symm
  pending := by
    rw [underWay_snoc, ← hs.pending]
    rfl
  called := hs.called
  started := fun h => by simp [Session.fail, hs.started h]

/-- A sign-in that succeeds was under way, so it was started. -/
lemma succeed (hs : Follows bs s) {account : Account} (hmem : account ∈ s.pending) :
    Follows (bs ++ [.succeed account])
      { s with authUser := some account, pending := s.pending.erase account } where
  gidUser := hs.gidUser.trans (congrArg _ (last_snoc_of_none rfl bs).symm)
  helperUser := hs.helperUser.trans (last_snoc_of_none rfl bs).symm
  authUser := by
    rw [last_snoc]
    rfl
  pending := by
    rw [underWay_snoc, ← hs.pending]
    rfl
  called := hs.called
  started := fun h => by simp [(hs.started h).1] at hmem

/-- **One step** leaves the copies the last ones of their kind. -/
lemma step (hs : Follows bs s) {a : Act Account} (ha : Genuine s a)
    (h : step givenName s a = some t) : Follows (bs ++ [a]) t := by
  cases a with
  | googleSignInDidTap =>
    obtain rfl := Option.some.inj h
    rw [googleSignInDidTap_eq]
    exact hs.logOut (.inl rfl)
  | didSignIn user =>
    obtain ⟨account, rfl, rfl⟩ := Option.map_eq_some_iff.mp h
    exact hs.loginWithGoogle account
  | succeed account =>
    obtain ⟨name, -, rfl⟩ := Option.map_eq_some_iff.mp h
    exact hs.succeed ha
  | fail account =>
    obtain rfl := Option.some.inj h
    exact hs.fail account
  | logOut =>
    obtain rfl := Option.some.inj h
    exact hs.logOut (.inr rfl)

/-- What it takes, in terms of the actions, that the copies agree. -/
lemma agrees_iff (hs : Follows bs s) : Agrees s ↔
    (underWay bs = [] → last Act.called bs = none ∨
      ∃ account, last Act.google bs = some (some account) ∧
        last Act.succeeded bs = some account) := by
  unfold Agrees
  rw [← hs.pending, ← hs.helperUser, ← hs.authUser]
  refine forall_congr' fun _ => ⟨fun ⟨hgid, hauth⟩ => ?_, ?_⟩
  · cases hhelper : s.helperUser with
    | none => exact .inl rfl
    | some account =>
      refine .inr ⟨account, ?_, by rw [← hauth, hhelper]⟩
      rw [hs.gidUser, hhelper] at hgid
      exact Option.join_eq_some_iff.mp hgid
  · rintro (hnone | ⟨account, hgoogle, hauth⟩)
    · have hgid : s.gidUser = none := by
        by_contra hne
        exact hne ((hs.called hne).symm.trans hnone)
      rw [hgid, hnone, (hs.started hnone).2]
      exact ⟨rfl, rfl⟩
    · have hgid : s.gidUser = some account := by rw [hs.gidUser, hgoogle, Option.join_some]
      have hhelper := hs.called (by simp [hgid])
      exact ⟨hhelper.symm, by rw [hhelper, hgid, hauth]⟩

/-- Only a callback with an error and a name that is not there trap. -/
lemma step_isSome (hs : Follows bs s) (a : Act Account) :
    (∃ t, Session.step givenName s a = some t) ↔ a ≠ .didSignIn none ∧
      ∀ account, a = .succeed account → ((last Act.called bs).bind givenName).isSome := by
  rw [← hs.helperUser]
  cases a with
  | didSignIn user => cases user <;> simp [Session.step, didSignIn]
  | succeed account =>
    unfold Session.step Session.succeed username
    rw [← Option.isSome_iff_exists, Option.isSome_map]
    simp
  | googleSignInDidTap | fail account | logOut => simp [Session.step]

/-- **One step** returns and leaves the copies in agreement exactly when it is orderly. -/
lemma orderly_iff (hs : Follows bs s) {a : Act Account} (ha : Genuine s a) :
    Orderly givenName bs a ↔ ∃ t, Session.step givenName s a = some t ∧ Agrees t := by
  constructor
  · intro h
    obtain ⟨t, ht⟩ := (hs.step_isSome a).mpr ⟨h.called, h.named⟩
    exact ⟨t, ht, (hs.step ha ht).agrees_iff.mpr h.settled⟩
  · rintro ⟨t, ht, hagrees⟩
    obtain ⟨hcalled, hnamed⟩ := (hs.step_isSome a).mp ⟨t, ht⟩
    exact ⟨hcalled, hnamed, (hs.step ha ht).agrees_iff.mp hagrees⟩

end Follows

/-- **When the copies agree**: no step of a run traps, and the copies agree in every state it
reaches with no sign-in under way, exactly when its actions are orderly throughout. -/
theorem agrees_iff_orderly (givenName : Account → Option Text) (as : List (Act Account))
    (h : Along (step givenName) Genuine init as) :
    Always (step givenName) Agrees init as ↔ Throughout (Orderly givenName) as :=
  always_iff_throughout (I := Follows) (fun _ _ _ _ hs ha ht => hs.step ha ht)
    (fun _ _ _ hs _ ha => hs.orderly_iff ha) follows_init (fun _ => ⟨rfl, rfl⟩) h

end

/-- Everybody's given name. -/
def named (_ : ℕ) : Option Text := some "Ada".toList

/-- An account that changes while the first sign-in is under way. -/
theorem orderly_of_change : Throughout (Orderly named)
    [.didSignIn (some 1), .logOut, .didSignIn (some 2), .succeed 1, .succeed 2] :=
  (agrees_iff_orderly named _ (by decide)).mp (by decide)

/-- Signing out leaves the account in `LoginHelper` and in `Auth`. -/
theorem not_always_agrees :
    ¬ ∀ as, Along (step named) Genuine init as → Always (step named) Agrees init as :=
  fun h => absurd (h [.didSignIn (some 1), .succeed 1, .logOut] (by decide)) (by decide)

end Solta.Session
