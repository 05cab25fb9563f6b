import Solta.Calendar
import Solta.HalfWritten

/-!
The order of the history.

The database lists the children of a node by their keys, and an observer of the history goes
through them in that order. The key of an event is its rendered date, which is no integer and
grows with the date, so what a callback lists is in the order of time.
-/

namespace Solta

namespace FUtilities

/-! ### The order of keys -/

lemma compareNames_swap (a b : Text) : compareNames a b = (compareNames b a).swap := by
  cases ha : tryParseStringToInt a <;> cases hb : tryParseStringToInt b <;>
    simp only [compareNames, ha, hb]
  · exact Std.OrientedOrd.eq_swap
  · rfl
  · rfl
  · rw [Ordering.swap_then, ← Std.OrientedOrd.eq_swap, ← Std.OrientedOrd.eq_swap]

instance : Std.TransCmp compareNames where
  eq_swap := compareNames_swap _ _
  isLE_trans {a b c} hab hbc := by
    cases ha : tryParseStringToInt a <;> cases hb : tryParseStringToInt b <;>
      cases hc : tryParseStringToInt c <;> simp only [compareNames, ha, hb, hc] at hab hbc ⊢
    case some.some.some =>
      rw [Ordering.isLE_then_iff_and] at hab hbc ⊢
      simp only [Std.isLE_compare, Std.compare_eq_lt] at hab hbc ⊢
      omega
    case none.none.none => exact Std.TransOrd.isLE_trans hab hbc
    all_goals simp at hab hbc ⊢

/-- The least name is before all others, and the greatest one after them. -/
def place (a : Text) : ℕ := if a = minName then 0 else if a = maxName then 2 else 1

lemma compareKey_eq_compareLex : compareKey = compareLex (compareOn place) compareNames := by
  have hne : minName ≠ maxName := by decide
  funext a b
  have hself : compareNames a a = .eq := Std.ReflCmp.compare_self
  unfold compareKey compareLex compareOn place
  split_ifs <;> simp_all <;> rfl

instance : Std.TransCmp compareKey := by
  rw [compareKey_eq_compareLex]
  infer_instance

lemma place_of_length {a : Text} (h : 10 < a.length) : place a = 1 := by
  have hmin : a ≠ minName := fun heq => absurd (heq ▸ h) (by decide)
  have hmax : a ≠ maxName := fun heq => absurd (heq ▸ h) (by decide)
  simp [place, hmin, hmax]

/-- Keys that are not integers compare unit by unit. -/
lemma compareKey_of_none {a b : Text} (ha : tryParseStringToInt a = none)
    (hb : tryParseStringToInt b = none) (ha1 : place a = 1) (hb1 : place b = 1) :
    compareKey a b = compare (utf16 a) (utf16 b) := by
  simp [compareKey_eq_compareLex, compareLex, compareOn, ha1, hb1, compareNames, ha, hb]

lemma utf16_cons {c : Char} (hc : c.toNat < 0x10000) (s : Text) :
    utf16 (c :: s) = c.toNat :: utf16 s := by
  unfold utf16
  rw [List.flatMap_cons, if_pos hc]
  rfl

/-- Unit by unit is character by character where every character is one unit. -/
lemma compare_utf16 {a b : Text} (ha : ∀ c ∈ a, c.toNat < 0x10000)
    (hb : ∀ c ∈ b, c.toNat < 0x10000) (h : List.Lex (· < ·) a b) :
    compare (utf16 a) (utf16 b) = .lt := by
  induction h with
  | nil =>
    rw [utf16_cons (hb _ (by simp))]
    rfl
  | cons h ih =>
    rw [utf16_cons (ha _ (by simp)), utf16_cons (hb _ (by simp))]
    have htail := ih (fun c hc => ha c (by simp [hc])) fun c hc => hb c (by simp [hc])
    exact (List.compare_cons_cons ..).trans (by simp [htail])
  | rel h =>
    rw [utf16_cons (ha _ (by simp)), utf16_cons (hb _ (by simp))]
    have hlt : compare (Char.toNat _) (Char.toNat _) = .lt := Std.compare_eq_lt.mpr h
    exact (List.compare_cons_cons ..).trans (by simp [hlt])

end FUtilities

namespace TimeOrder

open Lib Lib.Run FirebaseHelper HistoryVC HalfWritten

variable {Img : Type} {cloud : Cloud}

lemma toNat_lt_of_mem_string {date : Date} {c : Char} (h : c ∈ clockFormatter.string date) :
    c.toNat < 0x10000 := by
  have hpattern : clockFormatter.dateFormat.all fun c => c.toNat < 0x10000 := by decide
  rcases DateFormatter.mem_string h with hd | hp
  · obtain ⟨-, hle⟩ := Char.isDigit_iff_toNat.mp hd
    exact lt_of_le_of_lt hle (by decide)
  · exact of_decide_eq_true (List.all_eq_true.mp hpattern c hp)

lemma eleven_lt_length_string {date : Date} (h : InYears date) :
    11 < (clockFormatter.string date).length := by
  rw [length_string h]
  decide

/-- An event key is too long for an integer. -/
lemma tryParseStringToInt_string {date : Date} (h : InYears date) :
    FUtilities.tryParseStringToInt (clockFormatter.string date) = none := by
  unfold FUtilities.tryParseStringToInt
  exact if_pos (.inl (eleven_lt_length_string h))

lemma place_string {date : Date} (h : InYears date) :
    FUtilities.place (clockFormatter.string date) = 1 :=
  FUtilities.place_of_length (Nat.lt_of_succ_lt (eleven_lt_length_string h))

/-- The database lists the event keys of two dates in the order of the dates. -/
lemma compareKey_string {d₁ d₂ : Date} (h₁ : InYears d₁) (h₂ : InYears d₂)
    (h : d₁.millis < d₂.millis) :
    FUtilities.compareKey (clockFormatter.string d₁) (clockFormatter.string d₂) = .lt := by
  rw [FUtilities.compareKey_of_none (tryParseStringToInt_string h₁)
    (tryParseStringToInt_string h₂) (place_string h₁) (place_string h₂)]
  exact FUtilities.compare_utf16 (fun c => toNat_lt_of_mem_string)
    (fun c => toNat_lt_of_mem_string) (lex_string h₁ h₂ h)

/-- Dates in one millisecond have one key. -/
lemma string_eq_of_millis_eq {d₁ d₂ : Date} (h : d₁.millis = d₂.millis) :
    clockFormatter.string d₁ = clockFormatter.string d₂ := by
  have hlocal : localMillis clockFormatter.timeZone d₁ = localMillis clockFormatter.timeZone d₂ :=
    congrArg (· + clockFormatter.timeZone * 1000) h
  unfold DateFormatter.string components
  rw [hlocal]

/-- The detections are in the order of their dates. -/
def InTimeOrder (ds : List (Detection Img)) : Prop :=
  ds.Pairwise fun d₁ d₂ => d₁.date.millis < d₂.date.millis

/-- The detection was built by an initializer that reads the clock. -/
def FromClock (d : Detection Img) : Prop :=
  (∃ currentUser now image score, Detection.ofImage currentUser now image score = some d) ∨
    ∃ currentUser named now, Detection.init currentUser named now = some d

lemma FromClock.getDate_eq {d : Detection Img} (h : FromClock d) :
    d.getDate = clockFormatter.string d.date := by
  rcases h with ⟨_, _, _, _, h⟩ | ⟨_, _, _, h⟩
  · exact (Detection.ofImage_eq_some h).1.getDate_eq
  · exact (Detection.init_eq_some h).1.getDate_eq

/-! ### Rows -/

/-- The children of a node are listed by the order of keys, each key once. -/
lemma pairwise_childKeys (s : DataSnapshot) :
    s.childKeys.Pairwise fun a b => FUtilities.compareKey a b ≠ .gt ∧ a ≠ b := by
  have hnodup : s.childKeys.Nodup := s.childKeys_perm.nodup_iff.mpr s.nodup_children
  have : Std.Total fun a b => FUtilities.compareKey a b ≠ .gt := by
    refine ⟨fun a b => ?_⟩
    by_contra h
    obtain ⟨hab, hba⟩ := not_or.mp h
    rw [not_not] at hab hba
    rw [Std.OrientedCmp.gt_iff_lt, hba] at hab
    cases hab
  have : IsTrans Text fun a b => FUtilities.compareKey a b ≠ .gt := by
    refine ⟨fun a b c hab hbc => ?_⟩
    exact Ordering.ne_gt_iff_isLE.mpr (Std.TransCmp.isLE_trans (Ordering.ne_gt_iff_isLE.mp hab)
      (Ordering.ne_gt_iff_isLE.mp hbc))
  exact (List.pairwise_insertionSort (fun a b => FUtilities.compareKey a b ≠ .gt) s.children).and
    hnodup

section mapM

variable {α β : Type} {f : α → Option β} {as : List α} {bs : List β}

lemma exists_of_mem_mapM (h : as.mapM f = some bs) {b : β} (hb : b ∈ bs) :
    ∃ a ∈ as, f a = some b := by
  induction as generalizing bs with
  | nil =>
    obtain rfl : [] = bs := by simpa using h
    simp at hb
  | cons a as ih =>
    rw [List.mapM_cons] at h
    obtain ⟨x, hx, h⟩ := Option.bind_eq_some_iff.mp h
    obtain ⟨xs, hxs, h⟩ := Option.bind_eq_some_iff.mp h
    obtain rfl : x :: xs = bs := Option.some.inj h
    rcases List.mem_cons.mp hb with rfl | hb
    · exact ⟨a, by simp, hx⟩
    · obtain ⟨a', ha', hf⟩ := ih hxs hb
      exact ⟨a', by simp [ha'], hf⟩

/-- What is read of the items of a list is in an order that the items have. -/
lemma pairwise_mapM {r : β → β → Prop} (h : as.mapM f = some bs)
    (has : as.Pairwise fun a b => ∀ x y, f a = some x → f b = some y → r x y) :
    bs.Pairwise r := by
  induction as generalizing bs with
  | nil =>
    obtain rfl : [] = bs := by simpa using h
    exact List.Pairwise.nil
  | cons a as ih =>
    rw [List.mapM_cons] at h
    obtain ⟨x, hx, h⟩ := Option.bind_eq_some_iff.mp h
    obtain ⟨xs, hxs, h⟩ := Option.bind_eq_some_iff.mp h
    obtain rfl : x :: xs = bs := Option.some.inj h
    obtain ⟨hhead, htail⟩ := List.pairwise_cons.mp has
    refine List.pairwise_cons.mpr ⟨fun y hy => ?_, ih hxs htail⟩
    obtain ⟨b, hb, hby⟩ := exists_of_mem_mapM hxs hy
    exact hhead b hb x y hx hby

end mapM

variable {w : World Img} {s : DataSnapshot}

/-- A detection that is read has the date of its key. -/
lemma date_of_read (hs : Seen w s) (hw : Filed cloud w) (hin : ∀ d ∈ w.added, InYears d.date)
    {p : Path} {key : Text} {currentUser : Option User} {image : UIImage Img} {d : Detection Img}
    (h : Detection.ofSnapshot cloud currentUser image (s.below (p ++ [key])) = some d) :
    key = clockFormatter.string d.date ∧ InYears d.date := by
  obtain ⟨millis, score, school, url, hread⟩ :=
    (Detection.ofSnapshot_isSome_iff currentUser image).mp (by rw [h]; rfl)
  obtain rfl := Option.some.inj ((hread.ofSnapshot currentUser image).symm.trans h)
  have hmillis := hread.millis
  rw [PathStore.get_below] at hmillis
  obtain ⟨d, hd, r, key', hr, heq, hfield⟩ := hs.describes hw hmillis
  obtain ⟨hpath, hkey⟩ := List.append_inj' heq rfl
  obtain rfl : millisKey = key' := by simpa using hkey
  obtain rfl : nodePath d = r := Option.some.inj ((hw.event d hd).symm.trans hr)
  have hlast : key = d.getDate := by simpa using (List.append_inj' hpath rfl).2
  rw [fieldOf_millisKey] at hfield
  obtain rfl : d.millis = millis := by simpa using hfield
  have hbuilt := hw.built d hd
  have hdate : (⟨d.millis⟩ : Date) = d.date := by rw [hbuilt.millis]
  rw [hlast, hbuilt.getDate_eq, hdate]
  exact ⟨rfl, hin d hd⟩

/-- What a callback shows is in the order of time. -/
lemma rows_inTimeOrder (hs : Seen w s) (hw : Filed cloud w) (hin : ∀ d ∈ w.added, InYears d.date)
    {p : Path} {c : Callback Img} (hc : c.snapShot = s.below p) {rows : List (Detection Img)}
    (h : c.rows cloud = some rows) : InTimeOrder rows := by
  refine pairwise_mapM h (List.Pairwise.filter _ (List.pairwise_map.mpr ?_))
  refine (pairwise_childKeys c.snapShot).imp fun {a b} ⟨hle, hne⟩ x y hx hy => ?_
  rw [hc, PathStore.below_below] at hx hy
  obtain ⟨ha, hxin⟩ := date_of_read hs hw hin hx
  obtain ⟨hb, hyin⟩ := date_of_read hs hw hin hy
  rcases lt_trichotomy x.date.millis y.date.millis with hlt | heq | hgt
  · exact hlt
  · rw [ha, hb, string_eq_of_millis_eq heq] at hne
    exact absurd rfl hne
  · have hlt := compareKey_string hyin hxin hgt
    rw [← ha, ← hb, ← Std.OrientedCmp.gt_iff_lt] at hlt
    exact absurd hlt hle

/-- **The history is in time order**: of two detections built at clock readings of the years
1970 to 9999 the earlier one has the smaller key, and in every run, whatever a device is shown,
every callback of a history's observer adds its detections in the order of time. -/
theorem listed_in_time_order (cloud : Cloud) :
    (∀ d₁ d₂ : Detection Img, FromClock d₁ → FromClock d₂ → InYears d₁.date → InYears d₂.date →
      d₁.date.millis < d₂.date.millis → List.Lex (· < ·) d₁.getDate d₂.getDate) ∧
    ∀ (user : ℕ → Option User) (as : List (Act Img)) (t : World Img),
      run (step cloud) (init user) as = some t → (∀ d ∈ t.added, InYears d.date) →
      ∀ s, Seen t s → ∀ reader userRef (h₀ h h' : History Img) cs currentUser image,
        populateCells reader = some (userRef, h₀) → run (observer cloud) h₀ cs = some h →
        observer cloud h ⟨currentUser, image, s.below userRef⟩ = some h' →
        ∃ rows, h'.detections = h.detections ++ rows ∧ InTimeOrder rows := by
  refine ⟨fun d₁ d₂ hd₁ hd₂ h₁ h₂ hlt => ?_, ?_⟩
  · rw [hd₁.getDate_eq, hd₂.getDate_eq]
    exact lex_string h₁ h₂ hlt
  · intro user as t hrun hin s hs reader userRef h₀ h h' cs currentUser image hcells hcs hstep
    obtain rfl : ⟨[], []⟩ = h₀ := by
      simp only [populateCells, Option.bind_eq_bind, Option.bind_eq_some_iff,
        Option.some.injEq, Prod.mk.injEq] at hcells
      obtain ⟨-, -, -, -, -, -, -, hnil⟩ := hcells
      exact hnil
    have hagree := run_agree rfl hcs
    rw [observer_eq hagree] at hstep
    obtain ⟨rows, hrows, rfl⟩ := Option.map_eq_some_iff.mp hstep
    refine ⟨rows, ?_, rows_inTimeOrder hs (filed_of_run hrun) hin rfl hrows⟩
    rw [hagree]

/-- The last millisecond of a year and the first of the next, and the history of two calls. -/
theorem listed_two_calls :
    (∃ d₁ d₂ : Detection ℕ,
      Detection.ofImage (some Records.ada) (1546315199999 / 1000) none 40 = some d₁ ∧
        Detection.init (some Records.ada) none 1546315200 = some d₂ ∧
        List.Lex (· < ·) d₁.getDate d₂.getDate) ∧
    ∃ t, ∃ h : History ℕ, Records.afterTwoCalls (1 / 1000) = some t ∧
      observer Cloud.appBucket ⟨[], []⟩
        ⟨some Records.ada, .blank, t.database.below [users, "ada".toList]⟩ = some h ∧
      h.detections.length = 2 ∧ InTimeOrder h.detections := by
  obtain ⟨hkeys, hrows⟩ := @listed_in_time_order ℕ Cloud.appBucket
  refine ⟨?_, ?_⟩
  · obtain ⟨d₁, hd₁⟩ := Option.isSome_iff_exists.mp
      (show (Detection.ofImage (some Records.ada) (1546315199999 / 1000)
        (none : Option (UIImage ℕ)) 40).isSome by decide +kernel)
    obtain ⟨d₂, hd₂⟩ := Option.isSome_iff_exists.mp
      (show (Detection.init (some Records.ada) (none : Option (UIImage ℕ)) 1546315200).isSome by
        decide +kernel)
    have hdate₁ := (Detection.ofImage_eq_some hd₁).2.2.1
    have hdate₂ := (Detection.init_eq_some hd₂).2
    refine ⟨d₁, d₂, hd₁, hd₂, hkeys d₁ d₂ (.inl ⟨_, _, _, _, hd₁⟩) (.inr ⟨_, _, _, hd₂⟩) ?_ ?_ ?_⟩
    · rw [hdate₁]
      exact ⟨by decide +kernel, by decide +kernel⟩
    · rw [hdate₂]
      exact ⟨by decide +kernel, by decide +kernel⟩
    · rw [hdate₁, hdate₂]
      decide +kernel
  · obtain ⟨t, ht, -, hin, hany⟩ := Records.exists_settled (1 / 1000)
      (fun t => (∀ d ∈ t.added, 0 ≤ d.date.millis ∧ d.date.millis < 253402315200000) ∧
        (observer Cloud.appBucket (⟨[], []⟩ : History ℕ) ⟨some Records.ada, .blank,
          t.database.below [users, "ada".toList]⟩).any fun h => h.detections.length = 2)
      (by decide +kernel)
    obtain ⟨h, hh, hlen⟩ := (Option.any_eq_true _ _).mp hany
    obtain ⟨rows, hdet, horder⟩ := hrows _ _ t ht (fun d hd => ⟨(hin d hd).1, (hin d hd).2⟩)
      t.database (seen_database t) (some Records.ada) _ _ _ h [] _ _ rfl rfl hh
    obtain rfl : rows = h.detections := by simpa using hdet.symm
    exact ⟨t, h, ht, hh, of_decide_eq_true hlen, horder⟩

end TimeOrder

end Solta
