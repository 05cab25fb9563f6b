import Mathlib.Data.List.Infix

/-!
Runs of a machine that may trap.

The machine is a function `step s a` from a state and an action to the next state, `none`
when the action traps. A run is a list of actions. Safety of a run is `Always`; a condition
that every step of the run meets, on the state it starts from, is `Along`; one that every action
meets, on the actions before it, is `Throughout`. The rules below turn what one step does into
what a run does.
-/

namespace Lib.Run

variable {σ α : Type*} (step : σ → α → Option σ)

/-- The state after the actions of a run, `none` once one of them traps. -/
def run (s : σ) : List α → Option σ
  | [] => some s
  | a :: as => (step s a).bind fun t => run t as

@[simp] lemma run_nil (s : σ) : run step s [] = some s := rfl
@[simp] lemma run_cons (s : σ) (a : α) (as : List α) :
    run step s (a :: as) = (step s a).bind fun t => run step t as := rfl

lemma run_append (s : σ) (as bs : List α) :
    run step s (as ++ bs) = (run step s as).bind fun t => run step t bs := by
  induction as generalizing s with
  | nil => rfl
  | cons a as ih =>
    simp only [List.cons_append, run_cons, Option.bind_assoc]
    congr 1
    exact funext ih

lemma run_snoc (s : σ) (as : List α) (a : α) :
    run step s (as ++ [a]) = (run step s as).bind fun t => step t a := by
  rw [run_append]
  congr 1
  funext t
  simp

/-- No step of the run traps, and `P` holds in every state it reaches. -/
def Always (P : σ → Prop) (s : σ) : List α → Prop
  | [] => P s
  | a :: as => P s ∧ ∃ t, step s a = some t ∧ Always P t as

/-- Every step of the run meets `C` in the state it starts from. -/
def Along (C : σ → α → Prop) (s : σ) : List α → Prop
  | [] => True
  | a :: as => C s a ∧ ∀ t, step s a = some t → Along C t as

/-- Every action of the run meets `C` after the actions before it. -/
def Throughout (C : List α → α → Prop) (as : List α) : Prop :=
  ∀ bs a, bs ++ [a] <+: as → C bs a

variable {step}

lemma along_cons {C : σ → α → Prop} {s t : σ} {a : α} (h : step s a = some t) (as : List α) :
    Along step C s (a :: as) ↔ C s a ∧ Along step C t as := by
  simp [Along, h]

/-- A decidable condition can be tested along a run. -/
instance Along.decidable {C : σ → α → Prop} [∀ s a, Decidable (C s a)] :
    ∀ (s : σ) (as : List α), Decidable (Along step C s as)
  | _, [] => isTrue trivial
  | s, a :: as =>
    match h : step s a with
    | none => decidable_of_iff (C s a) (by simp [Along, h])
    | some t =>
      have := Along.decidable (C := C) t as
      decidable_of_iff _ (along_cons h as).symm

/-- A decidable property can be tested in the states of a run. -/
instance Always.decidable {P : σ → Prop} [DecidablePred P] :
    ∀ (s : σ) (as : List α), Decidable (Always step P s as)
  | s, [] => inferInstanceAs (Decidable (P s))
  | s, a :: as =>
    match h : step s a with
    | none => isFalse (by simp [Always, h])
    | some t =>
      have := Always.decidable (P := P) t as
      decidable_of_iff (P s ∧ Always step P t as) (by simp [Always, h])

lemma Always.head {P : σ → Prop} {s : σ} {as : List α} (h : Always step P s as) : P s := by
  cases as with
  | nil => exact h
  | cons a as => exact h.1

lemma Always.mono {P Q : σ → Prop} (hPQ : ∀ s, P s → Q s) {s : σ} {as : List α}
    (h : Always step P s as) : Always step Q s as := by
  induction as generalizing s with
  | nil => exact hPQ s h
  | cons a as ih =>
    obtain ⟨hs, t, ht, hr⟩ := h
    exact ⟨hPQ s hs, t, ht, ih hr⟩

lemma along_and {C D : σ → α → Prop} {s : σ} {as : List α} (hC : Along step C s as)
    (hD : Along step D s as) : Along step (fun s a => C s a ∧ D s a) s as := by
  induction as generalizing s with
  | nil => trivial
  | cons a as ih => exact ⟨⟨hC.1, hD.1⟩, fun t ht => ih (hC.2 t ht) (hD.2 t ht)⟩

lemma along_of_forall {C : σ → α → Prop} (hC : ∀ s a, C s a) (s : σ) (as : List α) :
    Along step C s as := by
  induction as generalizing s with
  | nil => trivial
  | cons a as ih => exact ⟨hC s a, fun t _ => ih t⟩

/-- A condition on the actions alone holds along a run when every action meets it. -/
lemma along_of_mem {C : α → Prop} (s : σ) {as : List α} (h : ∀ a ∈ as, C a) :
    Along step (fun _ a => C a) s as := by
  induction as generalizing s with
  | nil => trivial
  | cons a as ih =>
    exact ⟨h a (by simp), fun t _ => ih t fun b hb => h b (by simp [hb])⟩

/-- The states of `Always` are the states after the prefixes of the run. -/
theorem always_iff {P : σ → Prop} {s : σ} {as : List α} :
    Always step P s as ↔ ∀ bs, bs <+: as → ∃ t, run step s bs = some t ∧ P t := by
  induction as generalizing s with
  | nil => simp [Always]
  | cons a as ih =>
    constructor
    · rintro ⟨hs, t, ht, hr⟩ bs hbs
      rcases List.prefix_cons_iff.mp hbs with rfl | ⟨cs, rfl, hcs⟩
      · exact ⟨s, rfl, hs⟩
      · simpa [ht] using ih.mp hr cs hcs
    · intro h
      obtain ⟨t, ht, -⟩ := h [a] ⟨as, rfl⟩
      replace ht : step s a = some t := by simpa using ht
      refine ⟨by simpa using h [] (List.nil_prefix), t, ht, ih.mpr fun bs hbs => ?_⟩
      simpa [ht] using h (a :: bs) (by simpa using hbs)

/-- **The invariant rule**: what every step keeps holds where the run ends. -/
theorem run_inv {I : σ → Prop} (hI : ∀ s a t, I s → step s a = some t → I t) {s t : σ}
    {as : List α} (hs : I s) (h : run step s as = some t) : I t := by
  induction as generalizing s with
  | nil =>
    obtain rfl : s = t := by simpa using h
    exact hs
  | cons a as ih =>
    obtain ⟨u, hu, hr⟩ := Option.bind_eq_some_iff.mp h
    exact ih (hI s a u hs hu) hr

/-- **The rule for inherited assumptions**: an assumption `P` on the last state that every
earlier state inherits may be used at every step. -/
theorem run_inv_inherited {I P : σ → Prop} (hP : ∀ s a t, step s a = some t → P t → P s)
    (hI : ∀ s a t, I s → P s → step s a = some t → I t) {s t : σ} {as : List α}
    (hs : P s → I s) (h : run step s as = some t) (ht : P t) : I t := by
  have hinv : P t → I t := by
    refine run_inv (I := fun s => P s → I s) (fun s a u hi hstep hu => ?_) hs h
    have hp : P s := hP s a u hstep hu
    exact hI s a u (hi hp) hp hstep
  exact hinv ht

/-- **The conditional invariant rule**: a step that meets `C` keeps `I`, so a run whose
steps meet `C` does. -/
theorem run_inv_along {I : σ → Prop} {C : σ → α → Prop}
    (hI : ∀ s a t, I s → C s a → step s a = some t → I t) {s t : σ} {as : List α}
    (hs : I s) (hC : Along step C s as) (h : run step s as = some t) : I t := by
  induction as generalizing s with
  | nil =>
    obtain rfl : s = t := by simpa using h
    exact hs
  | cons a as ih =>
    obtain ⟨u, hu, hr⟩ := Option.bind_eq_some_iff.mp h
    exact ih (hI s a u hs hC.1 hu) (hC.2 u hu) hr

/-- **The safety rule**: a step that meets `C` from a state in `I` does not trap and stays
in `I`, so every state of a run whose steps meet `C` is in `I`. -/
theorem always_of_along {I : σ → Prop} {C : σ → α → Prop}
    (hI : ∀ s a, I s → C s a → ∃ t, step s a = some t ∧ I t) {s : σ} {as : List α}
    (hs : I s) (hC : Along step C s as) : Always step I s as := by
  induction as generalizing s with
  | nil => exact hs
  | cons a as ih =>
    obtain ⟨t, ht, hIt⟩ := hI s a hs hC.1
    exact ⟨hs, t, ht, ih hIt (hC.2 t ht)⟩

/-- An assumption that every earlier state inherits holds where a run starts. -/
lemma inherited_of_run {P : σ → Prop} (hP : ∀ s a t, step s a = some t → P t → P s) {s t : σ}
    {as : List α} (h : run step s as = some t) (ht : P t) : P s := by
  induction as generalizing s with
  | nil =>
    obtain rfl : s = t := by simpa using h
    exact ht
  | cons a as ih =>
    obtain ⟨u, hu, hr⟩ := Option.bind_eq_some_iff.mp h
    exact hP s a u hu (ih hr)

/-- **The safety rule with an inherited assumption**: the steps meet `C`, and the last state
an assumption `P` that every earlier state inherits. -/
theorem always_of_along_inherited {I P : σ → Prop} {C : σ → α → Prop}
    (hP : ∀ s a t, step s a = some t → P t → P s)
    (hI : ∀ s a t, I s → P s → C s a → step s a = some t → I t) {s t : σ} {as : List α}
    (hs : I s) (hC : Along step C s as) (h : run step s as = some t) (ht : P t) :
    Always step (fun s => I s ∧ P s) s as := by
  induction as generalizing s with
  | nil => exact ⟨hs, inherited_of_run hP h ht⟩
  | cons a as ih =>
    have hps : P s := inherited_of_run hP h ht
    obtain ⟨u, hu, hr⟩ := Option.bind_eq_some_iff.mp h
    exact ⟨⟨hs, hps⟩, u, hu, ih (hI s a u hs hps hC.1 hu) (hC.2 u hu) hr⟩

/-- **The converse rule**: when only steps that meet `C` lead from `P` to `P`, a run that stays
in `P` meets `C`. -/
theorem along_of_always {I P : σ → Prop} {C : σ → α → Prop}
    (hI : ∀ s a t, I s → step s a = some t → I t)
    (hC : ∀ s a t, I s → P s → step s a = some t → P t → C s a) {s : σ} {as : List α}
    (hs : I s) (h : Always step P s as) : Along step C s as := by
  induction as generalizing s with
  | nil => trivial
  | cons a as ih =>
    obtain ⟨hP, t, ht, hr⟩ := h
    refine ⟨hC s a t hs hP ht hr.head, fun u hu => ?_⟩
    obtain rfl : t = u := by simpa [ht] using hu
    exact ih (hI s a t hs ht) hr

/-- **The rule for conditions**: two conditions on steps that agree under an invariant hold
along the same runs, as long as the steps meet the condition `E` that keeps the invariant. -/
theorem along_congr {I : σ → Prop} {C D E : σ → α → Prop}
    (hI : ∀ s a t, I s → E s a → step s a = some t → I t)
    (hCD : ∀ s a, I s → E s a → (C s a ↔ D s a)) {s : σ} {as : List α} (hs : I s)
    (hE : Along step E s as) : Along step C s as ↔ Along step D s as := by
  induction as generalizing s with
  | nil => exact Iff.rfl
  | cons a as ih =>
    unfold Along
    rw [hCD s a hs hE.1]
    refine and_congr_right fun _ => forall₂_congr fun t ht => ?_
    exact ih (hI s a t hs hE.1 ht) (hE.2 t ht)

/-- **The exactness rule**: when, under an invariant `I`, a step leads to a state in `P`
exactly if it meets `C`, a run stays in `P` exactly if all its steps meet `C`. -/
theorem always_iff_along {I P : σ → Prop} {C : σ → α → Prop}
    (hI : ∀ s a t, I s → step s a = some t → I t)
    (hC : ∀ s a, I s → P s → (C s a ↔ ∃ t, step s a = some t ∧ P t)) {s : σ} {as : List α}
    (hs : I s) (hP : P s) : Always step P s as ↔ Along step C s as := by
  constructor
  · exact along_of_always hI (fun s a t hs hP ht hPt => (hC s a hs hP).mpr ⟨t, ht, hPt⟩) hs
  · intro h
    have hboth : Always step (fun s => I s ∧ P s) s as := by
      refine always_of_along (fun s a hs ha => ?_) ⟨hs, hP⟩ h
      obtain ⟨t, ht, hPt⟩ := (hC s a hs.1 hs.2).mp ha
      exact ⟨t, ht, hI s a t hs.1 ht, hPt⟩
    exact hboth.mono fun s hs => hs.2

lemma throughout_nil (C : List α → α → Prop) : Throughout C [] := by
  intro bs a h
  simp at h

lemma throughout_cons {C : List α → α → Prop} {a : α} {as : List α} :
    Throughout C (a :: as) ↔ C [] a ∧ Throughout (fun bs b => C (a :: bs) b) as := by
  constructor
  · intro h
    exact ⟨h [] a (by simp), fun bs b hb => h (a :: bs) b (by simpa using hb)⟩
  · rintro ⟨ha, h⟩ bs b hb
    cases bs with
    | nil =>
      obtain rfl : b = a := by simpa using hb
      exact ha
    | cons c bs =>
      obtain ⟨rfl, hbs⟩ := List.cons_prefix_cons.mp hb
      exact h bs b hbs

/-- **The exactness rule for histories**: when, under an invariant about the actions so far, a
step leads to a state in `P` exactly if the action meets `C` after these actions, a run stays
in `P` exactly if `C` holds throughout it. -/
theorem always_iff_throughout {I : List α → σ → Prop} {P : σ → Prop} {C : List α → α → Prop}
    {E : σ → α → Prop}
    (hI : ∀ bs s a t, I bs s → E s a → step s a = some t → I (bs ++ [a]) t)
    (hC : ∀ bs s a, I bs s → P s → E s a → (C bs a ↔ ∃ t, step s a = some t ∧ P t)) {s : σ}
    {as : List α} (hs : I [] s) (hP : P s) (hE : Along step E s as) :
    Always step P s as ↔ Throughout C as := by
  suffices h : ∀ bs, I bs s →
      (Always step P s as ↔ Throughout (fun cs a => C (bs ++ cs) a) as) from h [] hs
  clear hs
  induction as generalizing s with
  | nil => exact fun bs _ => iff_of_true hP (throughout_nil _)
  | cons a as ih =>
    intro bs hs
    rw [throughout_cons, List.append_nil, hC bs s a hs hP hE.1]
    unfold Always
    rw [and_iff_right hP]
    have hnext : ∀ t, step s a = some t → P t →
        (Always step P t as ↔ Throughout (fun cs b => C (bs ++ a :: cs) b) as) := by
      intro t ht hPt
      have h := ih hPt (hE.2 t ht) (bs ++ [a]) (hI bs s a t hs hE.1 ht)
      simpa only [List.append_assoc, List.singleton_append] using h
    constructor
    · rintro ⟨t, ht, hr⟩
      exact ⟨⟨t, ht, hr.head⟩, (hnext t ht hr.head).mp hr⟩
    · rintro ⟨⟨t, ht, hPt⟩, hr⟩
      exact ⟨t, ht, (hnext t ht hPt).mpr hr⟩

end Lib.Run
