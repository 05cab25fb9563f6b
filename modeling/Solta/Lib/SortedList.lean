import Mathlib.Data.List.Forall2
import Mathlib.Data.List.Pairwise
import Mathlib.Tactic.Common

/-!
Maps as lists of entries in the order of their keys.

The order is a comparator, for which different keys may tie. A list that is in order is known
by what is found in it when none do, and an entry goes in and out of a list the same way on
either side of an entry between.
-/

namespace Lib.SortedList

variable {K V : Type*} (cmp : K → K → Ordering)

/-- Every key comes before the keys to its right. -/
def Sorted (es : List (K × V)) : Prop := es.Pairwise fun e f => cmp e.1 f.1 = .lt

instance (es : List (K × V)) : Decidable (Sorted cmp es) :=
  inferInstanceAs (Decidable (es.Pairwise _))

def find (k : K) : List (K × V) → Option V
  | [] => none
  | e :: es => if cmp k e.1 = .eq then some e.2 else find k es

/-- Put an entry at its place, over the one that was there. -/
def insert (k : K) (v : V) : List (K × V) → List (K × V)
  | [] => [(k, v)]
  | e :: es =>
    match cmp k e.1 with
    | .lt => (k, v) :: e :: es
    | .eq => (k, v) :: es
    | .gt => e :: insert k v es

def erase (k : K) : List (K × V) → List (K × V)
  | [] => []
  | e :: es =>
    match cmp k e.1 with
    | .lt => e :: es
    | .eq => es
    | .gt => e :: erase k es

variable {cmp} {k k' : K} {v w : V} {e : K × V} {es fs : List (K × V)}

@[simp] lemma sorted_nil : Sorted cmp ([] : List (K × V)) := List.Pairwise.nil

lemma sorted_cons : Sorted cmp (e :: es) ↔ (∀ f ∈ es, cmp e.1 f.1 = .lt) ∧ Sorted cmp es :=
  List.pairwise_cons

lemma sorted_append : Sorted cmp (es ++ fs) ↔
    Sorted cmp es ∧ Sorted cmp fs ∧ ∀ e ∈ es, ∀ f ∈ fs, cmp e.1 f.1 = .lt :=
  List.pairwise_append

lemma sorted_middle : Sorted cmp (es ++ e :: fs) ↔
    Sorted cmp es ∧ Sorted cmp fs ∧ (∀ f ∈ es, cmp f.1 e.1 = .lt) ∧
      (∀ f ∈ fs, cmp e.1 f.1 = .lt) ∧ ∀ f ∈ es, ∀ g ∈ fs, cmp f.1 g.1 = .lt := by
  rw [sorted_append, sorted_cons]
  simp only [List.mem_cons, forall_eq_or_imp]
  constructor
  · rintro ⟨hes, ⟨he, hfs⟩, h⟩
    exact ⟨hes, hfs, fun f hf => (h f hf).1, he, fun f hf => (h f hf).2⟩
  · rintro ⟨hes, hfs, hlt, hgt, h⟩
    exact ⟨hes, ⟨hgt, hfs⟩, fun f hf => ⟨hlt f hf, h f hf⟩⟩

/-! ### On either side of an entry -/

lemma insert_left (h : cmp k e.1 = .lt) (v : V) (es fs : List (K × V)) :
    insert cmp k v (es ++ e :: fs) = insert cmp k v es ++ e :: fs := by
  induction es with
  | nil => simp [insert, h]
  | cons f es ih =>
    simp only [List.cons_append, insert]
    split <;> simp [ih]

lemma insert_right (h : ∀ f ∈ es, cmp k f.1 = .gt) (v : V) (fs : List (K × V)) :
    insert cmp k v (es ++ fs) = es ++ insert cmp k v fs := by
  induction es with
  | nil => rfl
  | cons f es ih =>
    have hf : cmp k f.1 = .gt := h f (by simp)
    simp [insert, hf, ih fun g hg => h g (by simp [hg])]

lemma erase_left (h : cmp k e.1 = .lt) (es fs : List (K × V)) :
    erase cmp k (es ++ e :: fs) = erase cmp k es ++ e :: fs := by
  induction es with
  | nil => simp [erase, h]
  | cons f es ih =>
    simp only [List.cons_append, erase]
    split <;> simp [ih]

lemma erase_right (h : ∀ f ∈ es, cmp k f.1 = .gt) (fs : List (K × V)) :
    erase cmp k (es ++ fs) = es ++ erase cmp k fs := by
  induction es with
  | nil => rfl
  | cons f es ih =>
    have hf : cmp k f.1 = .gt := h f (by simp)
    simp [erase, hf, ih fun g hg => h g (by simp [hg])]

lemma erase_of_find (h : find cmp k es = none) (hs : Sorted cmp es) : erase cmp k es = es := by
  induction es with
  | nil => rfl
  | cons e es ih =>
    rw [find] at h
    split at h
    · cases h
    · rename_i hne
      rw [erase]
      split
      · rfl
      · exact absurd ‹_› hne
      · rw [ih h (sorted_cons.mp hs).2]

/-- A new key is one entry more. -/
lemma insert_perm (h : find cmp k es = none) (v : V) : (insert cmp k v es).Perm ((k, v) :: es) := by
  induction es with
  | nil => exact List.Perm.refl _
  | cons e es ih =>
    rw [find] at h
    rw [insert]
    split at h
    · cases h
    · rename_i hne
      split
      · exact List.Perm.refl _
      · exact absurd ‹_› hne
      · exact ((ih h).cons e).trans (List.Perm.swap ..)

lemma find_append (k : K) (es fs : List (K × V)) :
    find cmp k (es ++ fs) = (find cmp k es).or (find cmp k fs) := by
  induction es with
  | nil => rfl
  | cons e es ih =>
    simp only [List.cons_append, find]
    split <;> simp [ih]

lemma find_of_forall_ne (h : ∀ f ∈ es, cmp k f.1 ≠ .eq) : find cmp k es = none := by
  induction es with
  | nil => rfl
  | cons e es ih =>
    simp [find, h e (by simp), ih fun f hf => h f (by simp [hf])]

/-! ### Order -/

lemma ne_of_lt [Std.ReflCmp cmp] (h : cmp k k' = .lt) : k ≠ k' := by
  rintro rfl
  have hself : cmp k k = .eq := Std.ReflCmp.compare_self
  rw [hself] at h
  cases h

/-- A key that is not below another is above all that are. -/
lemma gt_of_not_lt [Std.TransCmp cmp] {k₁ k₂ k₃ : K} (h : cmp k₁ k₂ ≠ .lt) (hlt : cmp k₃ k₂ = .lt) :
    cmp k₁ k₃ = .gt := by
  rw [Std.OrientedCmp.gt_iff_lt]
  refine Std.TransCmp.lt_of_lt_of_isLE hlt ?_
  rwa [← Std.OrientedCmp.isGE_iff_isLE, ← Ordering.ne_lt_iff_isGE]

lemma mem_insert {f : K × V} (h : f ∈ insert cmp k v es) : f = (k, v) ∨ f ∈ es := by
  induction es with
  | nil => simpa [insert] using h
  | cons e es ih =>
    simp only [insert] at h
    split at h
    · simpa using h
    · rcases List.mem_cons.mp h with h | h <;> simp [h]
    · rcases List.mem_cons.mp h with h | h
      · simp [h]
      · exact (ih h).imp_right fun h => by simp [h]

lemma mem_of_mem_erase {f : K × V} (h : f ∈ erase cmp k es) : f ∈ es := by
  induction es with
  | nil => simp [erase] at h
  | cons e es ih =>
    simp only [erase] at h
    split at h
    · exact h
    · exact List.mem_cons_of_mem _ h
    · rcases List.mem_cons.mp h with h | h
      · simp [h]
      · exact List.mem_cons_of_mem _ (ih h)

/-- The entries below a key, those of a list in order up to it. -/
def below (cmp : K → K → Ordering) (k : K) (es : List (K × V)) : List (K × V) :=
  es.filter fun e => cmp e.1 k = .lt

lemma below_eq_self (h : ∀ f ∈ es, cmp f.1 k = .lt) : below cmp k es = es :=
  List.filter_eq_self.mpr fun f hf => decide_eq_true (h f hf)

section find

variable [Std.TransCmp cmp]

lemma find_left (h : Sorted cmp (es ++ e :: fs)) (hk : cmp k e.1 = .lt) :
    find cmp k (es ++ e :: fs) = find cmp k es := by
  obtain ⟨-, -, -, hright, -⟩ := sorted_middle.mp h
  have hnone : find cmp k (e :: fs) = none := by
    refine find_of_forall_ne fun f hf heq => ?_
    rcases List.mem_cons.mp hf with rfl | hf
    · rw [hk] at heq
      cases heq
    · rw [Std.TransCmp.lt_trans hk (hright f hf)] at heq
      cases heq
  rw [find_append, hnone, Option.or_none]

lemma find_middle (h : Sorted cmp (es ++ e :: fs)) (hk : cmp k e.1 = .eq) :
    find cmp k (es ++ e :: fs) = some e.2 := by
  obtain ⟨-, -, hleft, -, -⟩ := sorted_middle.mp h
  have hnone : find cmp k es = none := by
    refine find_of_forall_ne fun f hf heq => ?_
    rw [gt_of_not_lt (by simp [hk]) (hleft f hf)] at heq
    cases heq
  rw [find_append, hnone, Option.none_or, find, if_pos hk]

lemma find_right (h : Sorted cmp (es ++ e :: fs)) (hk : cmp k e.1 = .gt) :
    find cmp k (es ++ e :: fs) = find cmp k fs := by
  obtain ⟨-, -, hleft, -, -⟩ := sorted_middle.mp h
  have hnone : find cmp k es = none := by
    refine find_of_forall_ne fun f hf heq => ?_
    rw [gt_of_not_lt (by simp [hk]) (hleft f hf)] at heq
    cases heq
  rw [find_append, hnone, Option.none_or, find, if_neg (by simp [hk])]

lemma below_left (h : Sorted cmp (es ++ e :: fs)) (hk : cmp k e.1 ≠ .gt) :
    below cmp k (es ++ e :: fs) = below cmp k es := by
  obtain ⟨-, -, -, hright, -⟩ := sorted_middle.mp h
  have hle : (cmp k e.1).isLE := Ordering.ne_gt_iff_isLE.mp hk
  have hnil : (e :: fs).filter (fun f => cmp f.1 k = .lt) = [] := by
    refine List.filter_eq_nil_iff.mpr fun f hf hlt => ?_
    rw [decide_eq_true_iff] at hlt
    have hself : cmp f.1 f.1 = .lt := by
      rcases List.mem_cons.mp hf with rfl | hf
      · exact Std.TransCmp.lt_of_lt_of_isLE hlt hle
      · exact Std.TransCmp.lt_trans (Std.TransCmp.lt_of_lt_of_isLE hlt hle) (hright f hf)
    exact ne_of_lt hself rfl
  rw [below, List.filter_append, hnil, List.append_nil]
  rfl

lemma below_right (h : Sorted cmp (es ++ e :: fs)) (hk : cmp k e.1 = .gt) :
    below cmp k (es ++ e :: fs) = es ++ e :: below cmp k fs := by
  obtain ⟨-, -, hleft, -, -⟩ := sorted_middle.mp h
  have hek : cmp e.1 k = .lt := Std.OrientedCmp.gt_iff_lt.mp hk
  have hall : es.filter (fun f => cmp f.1 k = .lt) = es :=
    below_eq_self fun f hf => Std.TransCmp.lt_trans (hleft f hf) hek
  rw [below, List.filter_append, hall, List.filter_cons, if_pos (decide_eq_true hek)]
  rfl

end find

lemma sorted_insert [Std.TransCmp cmp] (h : Sorted cmp es) (k : K) (v : V) :
    Sorted cmp (insert cmp k v es) := by
  induction es with
  | nil => simp [insert, Sorted]
  | cons e es ih =>
    obtain ⟨he, hes⟩ := sorted_cons.mp h
    simp only [insert]
    split
    · rename_i hk
      refine sorted_cons.mpr ⟨fun f hf => ?_, h⟩
      rcases List.mem_cons.mp hf with rfl | hf
      · exact hk
      · exact Std.TransCmp.lt_trans hk (he f hf)
    · rename_i hk
      exact sorted_cons.mpr ⟨fun f hf => Std.TransCmp.lt_of_eq_of_lt hk (he f hf), hes⟩
    · rename_i hk
      refine sorted_cons.mpr ⟨fun f hf => ?_, ih hes⟩
      rcases mem_insert hf with rfl | hf
      · exact Std.OrientedCmp.gt_iff_lt.mp hk
      · exact he f hf

lemma sorted_erase (h : Sorted cmp es) (k : K) : Sorted cmp (erase cmp k es) := by
  induction es with
  | nil => exact h
  | cons e es ih =>
    obtain ⟨he, hes⟩ := sorted_cons.mp h
    simp only [erase]
    split
    · exact h
    · exact hes
    · exact sorted_cons.mpr ⟨fun f hf => he f (mem_of_mem_erase hf), ih hes⟩

/-- Entries in order are one list when they are the same entries. -/
lemma eq_of_perm [Std.OrientedCmp cmp] (hes : Sorted cmp es) (hfs : Sorted cmp fs)
    (h : es.Perm fs) : es = fs := by
  refine h.eq_of_pairwise ?_ hes hfs
  intro a b _ _ hab hba
  exact absurd hba (Std.OrientedCmp.not_lt_of_lt hab)

/-! ### What is found -/

section tie

variable [Std.TransCmp cmp]

omit [Std.TransCmp cmp] in
lemma mem_of_find (h : find cmp k es = some v) : ∃ k', cmp k k' = .eq ∧ (k', v) ∈ es := by
  induction es with
  | nil => cases h
  | cons e es ih =>
    rw [find] at h
    split at h
    · rename_i hk
      obtain rfl := Option.some.inj h
      exact ⟨e.1, hk, by simp⟩
    · obtain ⟨k', htie, hmem⟩ := ih h
      exact ⟨k', htie, by simp [hmem]⟩

/-- What is found under a key is listed under one that ties with it. -/
lemma find_eq_some_iff_tie (h : Sorted cmp es) :
    find cmp k es = some v ↔ ∃ k', cmp k k' = .eq ∧ (k', v) ∈ es := by
  refine ⟨mem_of_find, ?_⟩
  rintro ⟨k', htie, hmem⟩
  obtain ⟨fs, gs, rfl⟩ := List.append_of_mem hmem
  exact find_middle h htie

lemma find_congr (h : cmp k k' = .eq) (es : List (K × V)) : find cmp k es = find cmp k' es := by
  induction es with
  | nil => rfl
  | cons e es ih => rw [find, find, ih, Std.TransCmp.congr_left h]

lemma find_insert_tie (k k' : K) (v : V) (es : List (K × V)) :
    find cmp k' (insert cmp k v es) = if cmp k' k = .eq then some v else find cmp k' es := by
  induction es with
  | nil => simp [insert, find]
  | cons e es ih =>
    simp only [insert]
    split
    · rw [find]
    · rename_i hk
      rw [find, find]
      split
      · rfl
      · rename_i hne
        have hne' : cmp k' e.1 ≠ .eq := by
          rwa [← Std.TransCmp.congr_right hk]
        rw [if_neg hne']
    · rename_i hk
      rw [find, find, ih]
      split
      · rename_i htie
        have hne : cmp k' k ≠ .eq := by
          intro h
          rw [Std.TransCmp.congr_left h, hk] at htie
          cases htie
        rw [if_neg hne]
      · rfl

lemma find_erase_tie (h : Sorted cmp es) (k k' : K) :
    find cmp k' (erase cmp k es) = if cmp k' k = .eq then none else find cmp k' es := by
  induction es with
  | nil => simp [erase, find]
  | cons e es ih =>
    obtain ⟨he, hes⟩ := sorted_cons.mp h
    have habsent : ∀ j, cmp j e.1 ≠ .gt → find cmp j es = none := by
      refine fun j hj => find_of_forall_ne fun f hf heq => hj ?_
      rw [Std.TransCmp.congr_left heq]
      exact Std.OrientedCmp.gt_iff_lt.mpr (he f hf)
    simp only [erase]
    split
    · rename_i hk
      split
      · rename_i htie
        have hk' : cmp k' e.1 = .lt := by rwa [Std.TransCmp.congr_left htie]
        rw [find, if_neg (by simp [hk']), habsent k' (by simp [hk'])]
      · rfl
    · rename_i hk
      rw [find, Std.TransCmp.congr_right hk]
      split
      · rename_i htie
        exact habsent k' (by simp [htie])
      · rfl
    · rename_i hk
      rw [find, find, ih hes]
      split
      · rename_i htie
        have hne : cmp k' k ≠ .eq := by
          intro h
          rw [Std.TransCmp.congr_left h, hk] at htie
          cases htie
        rw [if_neg hne]
      · rfl

/-- The key a list has for `k`, which is `k` itself when it has none. -/
def standing (cmp : K → K → Ordering) (k : K) : List (K × V) → K
  | [] => k
  | e :: es => if cmp k e.1 = .eq then e.1 else standing cmp k es

omit [Std.TransCmp cmp] in
lemma standing_append (h : ∀ f ∈ es, cmp k f.1 ≠ .eq) (fs : List (K × V)) :
    standing cmp k (es ++ fs) = standing cmp k fs := by
  induction es with
  | nil => rfl
  | cons e es ih =>
    rw [List.cons_append, standing, if_neg (h e (by simp)), ih fun f hf => h f (by simp [hf])]

omit [Std.TransCmp cmp] in
lemma standing_append_left (h : ∀ f ∈ fs, cmp k f.1 ≠ .eq) :
    standing cmp k (es ++ fs) = standing cmp k es := by
  induction es with
  | nil =>
    have hnil := standing_append h []
    rwa [List.append_nil] at hnil
  | cons e es ih => rw [List.cons_append, standing, standing, ih]

lemma standing_tie (k : K) (es : List (K × V)) : cmp k (standing cmp k es) = .eq := by
  induction es with
  | nil => exact Std.ReflCmp.compare_self
  | cons e es ih =>
    rw [standing]
    split
    · assumption
    · exact ih

end tie

/-! ### Lists of keys -/

section keys

/-- No two of the names tie. -/
def Untied (cmp : K → K → Ordering) (names : Set K) : Prop :=
  ∀ k ∈ names, ∀ k' ∈ names, cmp k k' = .eq → k = k'

/-- The keys tie one after the other. -/
def Tied (cmp : K → K → Ordering) (q p : List K) : Prop :=
  List.Forall₂ (fun k k' => cmp k k' = .eq) q p

/-- The first keys of `q` tie with `p`. -/
def TiedPrefix (cmp : K → K → Ordering) (p q : List K) : Prop := Tied cmp (q.take p.length) p

instance (q p : List K) : Decidable (Tied cmp q p) :=
  inferInstanceAs (Decidable (List.Forall₂ _ q p))

instance (p q : List K) : Decidable (TiedPrefix cmp p q) :=
  inferInstanceAs (Decidable (Tied cmp _ p))

variable {p q r s : List K}

@[simp] lemma tied_nil_right : Tied cmp q [] ↔ q = [] := List.forall₂_nil_right_iff

@[simp] lemma not_tied_nil_cons : ¬ Tied cmp [] (k :: p) := by
  intro h
  cases h

@[simp] lemma tied_cons : Tied cmp (k :: q) (k' :: p) ↔ cmp k k' = .eq ∧ Tied cmp q p :=
  List.forall₂_cons

@[simp] lemma tiedPrefix_nil : TiedPrefix cmp [] q := List.Forall₂.nil

@[simp] lemma not_tiedPrefix_cons_nil : ¬ TiedPrefix cmp (k :: p) [] := not_tied_nil_cons

@[simp] lemma tiedPrefix_cons :
    TiedPrefix cmp (k' :: p) (k :: q) ↔ cmp k k' = .eq ∧ TiedPrefix cmp p q := tied_cons

/-- Lists of names of which no two tie are tied only to themselves. -/
lemma Tied.eq {names : Set K} (hnames : Untied cmp names) (hq : ∀ k ∈ q, k ∈ names)
    (hp : ∀ k ∈ p, k ∈ names) (h : Tied cmp q p) : q = p := by
  induction h with
  | nil => rfl
  | cons hk _ ih =>
    obtain ⟨hkq, hq⟩ := List.forall_mem_cons.mp hq
    obtain ⟨hkp, hp⟩ := List.forall_mem_cons.mp hp
    rw [hnames _ hkq _ hkp hk, ih hq hp]

lemma TiedPrefix.begins {names : Set K} (hnames : Untied cmp names) (hp : ∀ k ∈ p, k ∈ names)
    (hq : ∀ k ∈ q, k ∈ names) (h : TiedPrefix cmp p q) : p <+: q := by
  rw [← Tied.eq hnames (fun k hk => hq k (List.mem_of_mem_take hk)) hp h]
  exact List.take_prefix _ q

lemma TiedPrefix.append (h : TiedPrefix cmp p q) (s : List K) : TiedPrefix cmp p (q ++ s) := by
  have hlen : p.length ≤ q.length := by
    have hlen := h.length_eq
    rw [List.length_take] at hlen
    omega
  rw [TiedPrefix, List.take_append_of_le_length hlen]
  exact h

/-- What ties with the first keys of a longer list ties with those of a part of it, or a part of
it with the part. -/
lemma TiedPrefix.of_append (h : TiedPrefix cmp p (q ++ s)) :
    TiedPrefix cmp p q ∨ ∃ r, r <+: p ∧ Tied cmp q r := by
  rcases Nat.le_total p.length q.length with hle | hle
  · rw [TiedPrefix, List.take_append_of_le_length hle] at h
    exact .inl h
  · refine .inr ⟨p.take q.length, List.take_prefix _ p, ?_⟩
    have htake := List.forall₂_take q.length h
    rwa [List.take_take, Nat.min_eq_left hle, List.take_left] at htake

variable [Std.TransCmp cmp]

lemma tied_refl (p : List K) : Tied cmp p p :=
  List.forall₂_same.mpr fun _ _ => Std.ReflCmp.compare_self

lemma Tied.symm (h : Tied cmp q p) : Tied cmp p q := by
  induction h with
  | nil => exact List.Forall₂.nil
  | cons hk _ ih => exact List.Forall₂.cons (Std.OrientedCmp.eq_symm hk) ih

lemma Tied.trans (h : Tied cmp q p) (h' : Tied cmp p r) : Tied cmp q r := by
  induction h generalizing r with
  | nil => exact h'
  | cons hk _ ih =>
    cases h' with
    | cons hk' h' => exact List.Forall₂.cons (Std.TransCmp.eq_trans hk hk') (ih h')

lemma TiedPrefix.of_tied (h : TiedPrefix cmp p q) (hr : Tied cmp r q) : TiedPrefix cmp p r :=
  Tied.trans (List.forall₂_take _ hr) h

lemma tiedPrefix_of_begins (h : p <+: q) : TiedPrefix cmp p q := by
  obtain ⟨s, rfl⟩ := h
  rw [TiedPrefix, List.take_left]
  exact tied_refl p

end keys

variable [Std.LawfulEqCmp cmp]

lemma untied_univ : Untied cmp Set.univ := fun _ _ _ _ => Std.LawfulEqCmp.eq_of_compare

lemma find_cons (k : K) (e : K × V) (es : List (K × V)) [Decidable (k = e.1)] :
    find cmp k (e :: es) = if k = e.1 then some e.2 else find cmp k es := by
  simp [find, Std.LawfulEqCmp.compare_eq_iff_eq]

variable [Std.TransCmp cmp]

lemma find_eq_some_iff (h : Sorted cmp es) : find cmp k es = some v ↔ (k, v) ∈ es := by
  simp [find_eq_some_iff_tie h, Std.LawfulEqCmp.compare_eq_iff_eq]

lemma find_insert [DecidableEq K] (k k' : K) (v : V) (es : List (K × V)) :
    find cmp k' (insert cmp k v es) = if k' = k then some v else find cmp k' es := by
  simp [find_insert_tie, Std.LawfulEqCmp.compare_eq_iff_eq]

lemma find_erase [DecidableEq K] (h : Sorted cmp es) (k k' : K) :
    find cmp k' (erase cmp k es) = if k' = k then none else find cmp k' es := by
  simp [find_erase_tie h, Std.LawfulEqCmp.compare_eq_iff_eq]

/-- Lists in order are one when the same is found in them. -/
theorem ext_find (hes : Sorted cmp es) (hfs : Sorted cmp fs)
    (h : ∀ k, find cmp k es = find cmp k fs) : es = fs := by
  have hmem : ∀ e, e ∈ es ↔ e ∈ fs := by
    rintro ⟨k, v⟩
    rw [← find_eq_some_iff hes, ← find_eq_some_iff hfs, h]
  have hnodup : ∀ {gs : List (K × V)}, Sorted cmp gs → gs.Nodup := by
    intro gs hgs
    exact hgs.imp fun hab heq => ne_of_lt hab (congrArg Prod.fst heq)
  exact eq_of_perm hes hfs
    ((List.perm_ext_iff_of_nodup (hnodup hes) (hnodup hfs)).mpr hmem)

end Lib.SortedList
