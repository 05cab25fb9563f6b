import Solta.Database.Enumerator
import Solta.TimeOrder

/-!
Which keys are the same to the order of keys.

Keys that are 32-bit integers are compared as integers and then by their length, so `-0` and
`00` take one place in a dictionary. These are the only different keys that do.
-/

namespace Solta.FUtilities

open Lib

/-! ### Integers -/

/-- The value of digits. -/
def readDigits (ds : Text) : ℤ := ds.foldl (fun v c => v * 10 + (c.toNat - '0'.toNat)) 0

lemma readDigits_snoc (ds : Text) (c : Char) :
    readDigits (ds ++ [c]) = readDigits ds * 10 + (c.toNat - '0'.toNat) := by
  simp [readDigits, List.foldl_append]

lemma digit_bounds {c : Char} (h : c.isDigit) : '0'.toNat ≤ c.toNat ∧ c.toNat ≤ '0'.toNat + 9 :=
  Char.isDigit_iff_toNat.mp h

lemma readDigits_nonneg {ds : Text} (h : ds.all Char.isDigit) : 0 ≤ readDigits ds := by
  induction ds using List.reverseRecOn with
  | nil => exact le_rfl
  | append_singleton ds c ih =>
    simp only [List.all_append, Bool.and_eq_true, List.all_cons, List.all_nil, Bool.and_true] at h
    have hds := ih h.1
    obtain ⟨hc, -⟩ := digit_bounds h.2
    rw [readDigits_snoc]
    omega

/-- Digits of one length are known by their value. -/
lemma readDigits_inj {ds es : Text} (hds : ds.all Char.isDigit) (hes : es.all Char.isDigit)
    (hlen : ds.length = es.length) (h : readDigits ds = readDigits es) : ds = es := by
  induction ds using List.reverseRecOn generalizing es with
  | nil => exact (List.eq_nil_of_length_eq_zero hlen.symm).symm
  | append_singleton ds c ih =>
    rcases List.eq_nil_or_concat es with rfl | ⟨es, e, rfl⟩
    · simp at hlen
    · rw [List.concat_eq_append] at hlen hes h ⊢
      simp only [List.all_append, Bool.and_eq_true, List.all_cons, List.all_nil,
        Bool.and_true] at hds hes
      rw [readDigits_snoc, readDigits_snoc] at h
      obtain ⟨hc, hc'⟩ := digit_bounds hds.2
      obtain ⟨he, he'⟩ := digit_bounds hes.2
      have hhead : readDigits ds = readDigits es := by omega
      obtain rfl : c = e := Char.toNat_inj.mp (by omega)
      rw [ih hds.1 hes.1 (by simpa using hlen) hhead]

/-- A negative key. -/
def negative (s : Text) : Bool := s.head? = some '-'

def digits (s : Text) : Text := if negative s then s.tail else s

lemma eq_of_digits {a b : Text} (hneg : negative a = negative b) (h : digits a = digits b) :
    a = b := by
  have hhead : ∀ {s : Text}, negative s = true → s = '-' :: digits s := by
    intro s hs
    cases s with
    | nil => simp [negative] at hs
    | cons c s =>
      obtain rfl : c = '-' := by simpa [negative] using hs
      simp [digits, negative]
  have hbare : ∀ {s : Text}, negative s = false → s = digits s := by
    intro s hs
    simp [digits, hs]
  cases hb : negative b
  · rw [hbare (hneg.trans hb), hbare hb, h]
  · rw [hhead (hneg.trans hb), hhead hb, h]

/-- What a key that is an integer looks like. -/
lemma tryParse_eq_some {s : Text} {n : ℤ} (h : tryParseStringToInt s = some n) :
    (digits s).all Char.isDigit ∧
      n = if negative s then -readDigits (digits s) else readDigits (digits s) := by
  unfold tryParseStringToInt at h
  by_cases hneg : s.head? = some '-' <;> simp only [hneg, if_true, if_false] at h
  all_goals
    split at h
    · cases h
    · rename_i hnot
      split at h
      · cases h
      · obtain rfl := Option.some.inj h
        have hdigits : (digits s).all Char.isDigit := by
          simpa [digits, negative, hneg] using (not_or.mp (not_or.mp hnot).2).2
        refine ⟨hdigits, ?_⟩
        simp [digits, negative, hneg, readDigits]

/-! ### Code units -/

lemma toNat_bounds (c : Char) : c.toNat < 0xD800 ∨ 0xDFFF < c.toNat ∧ c.toNat < 0x110000 := c.valid

/-- The units of a text begin with those of its first character. -/
lemma utf16_cons_inj {c d : Char} {a b : Text} (h : utf16 (c :: a) = utf16 (d :: b)) :
    c = d ∧ utf16 a = utf16 b := by
  have hc := toNat_bounds c
  have hd := toNat_bounds d
  unfold utf16 at h ⊢
  rw [List.flatMap_cons, List.flatMap_cons] at h
  split at h <;> split at h <;>
    simp only [List.cons_append, List.nil_append, List.cons.injEq] at h
  · exact ⟨Char.toNat_inj.mp h.1, h.2⟩
  · omega
  · omega
  · exact ⟨Char.toNat_inj.mp (by omega), h.2.2⟩

lemma utf16_injective : Function.Injective utf16 := by
  have hnil : ∀ (c : Char) (a : Text), utf16 (c :: a) ≠ [] := by
    intro c a h
    unfold utf16 at h
    rw [List.flatMap_cons, List.append_eq_nil_iff] at h
    split at h <;> simp at h
  intro a
  induction a with
  | nil =>
    intro b h
    cases b with
    | nil => rfl
    | cons d b => exact absurd h.symm (hnil d b)
  | cons c a ih =>
    intro b h
    cases b with
    | nil => exact absurd h (hnil c a)
    | cons d b =>
      obtain ⟨rfl, htail⟩ := utf16_cons_inj h
      rw [ih htail]

/-! ### Ties -/

/-- A key ties with itself, and the texts of zero with those of the same length. -/
lemma compareNames_eq_iff (a b : Text) :
    compareNames a b = .eq ↔ a = b ∨ (tryParseStringToInt a = some 0 ∧
      tryParseStringToInt b = some 0 ∧ a.length = b.length) := by
  have hself : compareNames a a = .eq := Std.ReflCmp.compare_self
  cases ha : tryParseStringToInt a with
  | none =>
    cases hb : tryParseStringToInt b with
    | none =>
      simp [compareNames, ha, hb, utf16_injective.eq_iff]
    | some m =>
      have hne : a ≠ b := by
        rintro rfl
        rw [ha] at hb
        cases hb
      simp [compareNames, ha, hb, hne]
  | some n =>
    cases hb : tryParseStringToInt b with
    | none =>
      have hne : a ≠ b := by
        rintro rfl
        rw [ha] at hb
        cases hb
      simp [compareNames, ha, hb, hne]
    | some m =>
      simp only [compareNames, ha, hb, Ordering.then_eq_eq, Std.LawfulEqOrd.compare_eq_iff_eq,
        Option.some.injEq]
      constructor
      · rintro ⟨rfl, hlen⟩
        obtain ⟨hda, hna⟩ := tryParse_eq_some ha
        obtain ⟨hdb, hnb⟩ := tryParse_eq_some hb
        have hpa := readDigits_nonneg hda
        have hpb := readDigits_nonneg hdb
        by_cases hneg : negative a = negative b
        · refine .inl (eq_of_digits hneg (readDigits_inj hda hdb ?_ ?_))
          · unfold digits
            rw [hneg]
            split <;> simp [hlen]
          · rw [hna, hneg] at hnb
            split at hnb <;> omega
        · -- of two zeros one is negative
          refine .inr ⟨?_, ?_, hlen⟩ <;> cases hb' : negative b <;>
            simp only [hb', Bool.not_eq_false, Bool.not_eq_true] at hneg <;>
            simp only [hneg, hb', if_true, Bool.false_eq_true, if_false] at hna hnb <;> omega
      · rintro (rfl | ⟨rfl, rfl, hlen⟩)
        · rw [ha] at hb
          exact ⟨Option.some.inj hb, rfl⟩
        · exact ⟨rfl, hlen⟩

/-- An integer is neither the least nor the greatest name. -/
lemma place_of_tryParse {a : Text} {n : ℤ} (h : tryParseStringToInt a = some n) : place a = 1 := by
  have hmin : a ≠ minName := fun heq => by
    rw [heq] at h
    exact absurd (h.symm.trans (by decide : tryParseStringToInt minName = none)) (by simp)
  have hmax : a ≠ maxName := fun heq => by
    rw [heq] at h
    exact absurd (h.symm.trans (by decide : tryParseStringToInt maxName = none)) (by simp)
  simp [place, hmin, hmax]

lemma compareKey_eq_iff (a b : Text) :
    compareKey a b = .eq ↔ a = b ∨ (tryParseStringToInt a = some 0 ∧
      tryParseStringToInt b = some 0 ∧ a.length = b.length) := by
  rw [compareKey_eq_compareLex, compareLex, Ordering.then_eq_eq, compareNames_eq_iff]
  refine and_iff_right_of_imp ?_
  rintro (rfl | ⟨ha, hb, -⟩)
  · exact Std.ReflCmp.compare_self
  · unfold compareOn
    rw [place_of_tryParse ha, place_of_tryParse hb]
    rfl

lemma compareKey_of_place_lt {a b : Text} (h : place a < place b) : compareKey a b = .lt := by
  rw [compareKey_eq_compareLex, compareLex, compareOn, Std.compare_eq_lt.mpr h]
  rfl

lemma compareKey_of_place_eq {a b : Text} (h : place a = place b) :
    compareKey a b = compareNames a b := by
  have hself : compare (place b) (place b) = .eq := Std.ReflCmp.compare_self
  rw [compareKey_eq_compareLex, compareLex, compareOn, h, hself]
  rfl

/-- The least name is before every other. -/
lemma compareKey_minName {a : Text} (h : a ≠ minName) : compareKey minName a = .lt := by
  refine compareKey_of_place_lt ?_
  unfold place
  rw [if_pos rfl, if_neg h]
  split <;> omega

/-- The greatest name is after every other. -/
lemma compareKey_maxName {a : Text} (h : a ≠ maxName) : compareKey a maxName = .lt := by
  have hmax : place maxName = 2 := rfl
  refine compareKey_of_place_lt ?_
  rw [hmax, place, if_neg h]
  split <;> omega

/-- Integers are before all names but the least, and in their order. -/
lemma compareKey_of_tryParse {a b : Text} {n : ℤ} (ha : tryParseStringToInt a = some n)
    (hb : b ≠ minName) (h : ∀ m, tryParseStringToInt b = some m → n < m) :
    compareKey a b = .lt := by
  have hpa := place_of_tryParse ha
  by_cases hmax : b = maxName
  · rw [hmax]
    refine compareKey_maxName fun heq => ?_
    rw [heq] at hpa
    exact absurd hpa (by decide)
  · have hpb : place b = 1 := by simp [place, hb, hmax]
    rw [compareKey_of_place_eq (hpa.trans hpb.symm)]
    cases hm : tryParseStringToInt b with
    | none => simp [compareNames, ha, hm]
    | some m => simp [compareNames, ha, hm, Std.compare_eq_lt.mpr (h m hm)]

/-- **The order of keys** is total, with the least name first and the greatest last. Integers are
before the other names and in their order, and different keys tie only when both are zero and
of one length. -/
theorem compareKey_total (a b c : Text) :
    compareKey a b = (compareKey b a).swap ∧
    ((compareKey a b).isLE → (compareKey b c).isLE → (compareKey a c).isLE) ∧
    (compareKey a b = .eq ↔ a = b ∨ (tryParseStringToInt a = some 0 ∧
      tryParseStringToInt b = some 0 ∧ a.length = b.length)) ∧
    (a ≠ minName → compareKey minName a = .lt) ∧
    (a ≠ maxName → compareKey a maxName = .lt) ∧
    (∀ n, tryParseStringToInt a = some n → b ≠ minName →
      (∀ m, tryParseStringToInt b = some m → n < m) → compareKey a b = .lt) :=
  ⟨Std.OrientedCmp.eq_swap, Std.TransCmp.isLE_trans, compareKey_eq_iff a b, compareKey_minName,
    compareKey_maxName, fun _ ha hb h => compareKey_of_tryParse ha hb h⟩

/-- A key that is no negative zero. -/
abbrev Key : Type := {s : Text // ¬ (negative s ∧ tryParseStringToInt s = some 0)}

def Key.compare (a b : Key) : Ordering := compareKey a.1 b.1

instance : Std.TransCmp Key.compare where
  eq_swap {a b} := by
    have hswap : compareKey a.1 b.1 = (compareKey b.1 a.1).swap := Std.OrientedCmp.eq_swap
    exact hswap
  isLE_trans {a b c} hab hbc := by
    have htrans : (compareKey a.1 b.1).isLE → (compareKey b.1 c.1).isLE →
        (compareKey a.1 c.1).isLE := Std.TransCmp.isLE_trans
    exact htrans hab hbc

instance : Std.LawfulEqCmp Key.compare where
  compare_self {a} := by
    have hself : compareKey a.1 a.1 = .eq := Std.ReflCmp.compare_self
    exact hself
  eq_of_compare {a b} h := by
    rcases (compareKey_eq_iff a.1 b.1).mp h with h | ⟨ha, hb, hlen⟩
    · exact Subtype.ext h
    · have hna : negative a.1 = false := by simpa [ha] using a.2
      have hnb : negative b.1 = false := by simpa [hb] using b.2
      obtain ⟨hda, hva⟩ := tryParse_eq_some ha
      obtain ⟨hdb, hvb⟩ := tryParse_eq_some hb
      refine Subtype.ext (eq_of_digits (hna.trans hnb.symm) (readDigits_inj hda hdb ?_ ?_))
      · simp [digits, hna, hnb, hlen]
      · simp only [hna, hnb, Bool.false_eq_true, if_false] at hva hvb
        rw [← hva, ← hvb]

end Solta.FUtilities
