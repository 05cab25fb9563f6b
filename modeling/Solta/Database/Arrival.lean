import Solta.Database.Delivery

/-!
What arrives at the server.

Puts are sent again when their answers are lost, so the server may make them twice, and its data
may fall behind for a while. With the puts that are not answered made once more, the data is
always what all puts leave, each made once. The app hears of each put once, and in their order
unless the connection is lost while answers are held back for a listen.
-/

namespace Solta.Exchange

open Lib Overwrite Run FPersistentConnection

variable {P Q K V : Type} [DecidableEq Q] [DecidableEq K]
  {effect : P → Option (List K × Leaves K V)} {data data₀ : Leaves K V} {made ps qs : List P}
  {s s' : Exchange P Q K V} {acked taken : ℕ}

lemma apply_append (data : Leaves K V) (ps qs : List P) :
    apply effect data (ps ++ qs) = apply effect (apply effect data ps) qs := by
  rw [apply, List.filterMap_append, puts_append]
  rfl

@[simp] lemma apply_nil (data : Leaves K V) : apply effect data ([] : List P) = data := rfl

lemma apply_again (data : Leaves K V) (ps qs : List P) :
    apply effect (apply effect data (ps ++ qs)) qs = apply effect data (ps ++ qs) := by
  simp only [apply, List.filterMap_append]
  exact puts_again ..

/-- The puts from one index to another. -/
def between (ps : List P) (i j : ℕ) : List P := (ps.take j).drop i

lemma between_append {i j k : ℕ} (hij : i ≤ j) (hjk : j ≤ k) (hk : k ≤ ps.length) :
    between ps i j ++ between ps j k = between ps i k := by
  have hlen : i ≤ ((ps.take k).take j).length := by
    rw [List.length_take, List.length_take]
    omega
  have htake : ps.take j = (ps.take k).take j := by rw [List.take_take, Nat.min_eq_left hjk]
  rw [between, between, between, htake, ← List.drop_append_of_le_length hlen,
    List.take_append_drop]

lemma between_self (ps : List P) (i : ℕ) : between ps i i = [] :=
  List.drop_eq_nil_of_le (List.length_take_le i ps)

lemma between_length (ps : List P) (i : ℕ) : between ps i ps.length = ps.drop i := by
  rw [between, List.take_length]

lemma between_succ {i : ℕ} {p : P} (h : ps[i]? = some p) : between ps i (i + 1) = [p] := by
  rw [between, List.take_add_one, h, List.drop_append_of_le_length, List.drop_eq_nil_of_le]
  · rfl
  · exact List.length_take_le i ps
  · obtain ⟨hlt, -⟩ := List.getElem?_eq_some_iff.mp h
    rw [List.length_take]
    omega

/-- What was made before stays where it was. -/
lemma between_made {i j : ℕ} (hj : j ≤ ps.length) (qs : List P) :
    between (ps ++ qs) i j = between ps i j := by
  rw [between, List.take_append_of_le_length hj, between]

/-! ### The server's data -/

/-- **What the server has**: the puts since the connection was made last are the last it took, and
with those it took before they leave what all puts leave. -/
structure Served (effect : P → Option (List K × Leaves K V)) (data₀ data : Leaves K V)
    (made : List P) (base taken top : ℕ) : Prop where
  base_le : base ≤ taken
  le_top : taken ≤ top
  top_le : top ≤ made.length
  last : ∃ before, data = apply effect before (between made base taken)
  all : apply effect data (between made taken top) = apply effect data₀ (made.take top)

lemma served_init (effect : P → Option (List K × Leaves K V)) (data : Leaves K V) :
    Served effect data data ([] : List P) 0 0 0 :=
  ⟨le_rfl, le_rfl, le_rfl, ⟨data, rfl⟩, rfl⟩

variable {base top : ℕ}

/-- Puts that are made later. -/
lemma Served.later (h : Served effect data₀ data made base taken top) (rest : List P) :
    Served effect data₀ data (made ++ rest) base taken top := by
  refine ⟨h.base_le, h.le_top, by rw [List.length_append]; exact Nat.le_add_right_of_le h.top_le,
    ?_, ?_⟩
  · rw [between_made (h.le_top.trans h.top_le)]
    exact h.last
  · rw [between_made h.top_le, h.all, List.take_append_of_le_length h.top_le]

/-- The next put is taken. -/
lemma Served.take (h : Served effect data₀ data made base taken top) {p : P}
    (hp : made[taken]? = some p) :
    ∃ top', Served effect data₀ (apply effect data [p]) made base (taken + 1) top' := by
  obtain ⟨hlt, -⟩ := List.getElem?_eq_some_iff.mp hp
  have hlast : ∃ before, apply effect data [p] =
      apply effect before (between made base (taken + 1)) := by
    obtain ⟨before, hbefore⟩ := h.last
    refine ⟨before, ?_⟩
    rw [← between_append h.base_le (Nat.le_succ taken) hlt, apply_append, ← hbefore,
      between_succ hp]
  rcases h.le_top.lt_or_eq with htop | rfl
  · refine ⟨top, Nat.le_succ_of_le h.base_le, htop, h.top_le, hlast, ?_⟩
    rw [← h.all, ← between_append (Nat.le_succ taken) htop h.top_le, between_succ hp,
      apply_append]
  · refine ⟨taken + 1, Nat.le_succ_of_le h.base_le, le_rfl, hlt, hlast, ?_⟩
    have hall := h.all
    rw [between_self, apply_nil] at hall
    rw [between_self, apply_nil, hall, ← apply_append, List.take_add_one, hp]
    rfl

/-- Putting again what was put since the connection was made changes nothing. -/
lemma Served.again (h : Served effect data₀ data made base taken top) {i : ℕ} (hbase : base ≤ i)
    (hi : i ≤ taken) : apply effect data (between made i taken) = data := by
  obtain ⟨before, hbefore⟩ := h.last
  have hle : taken ≤ made.length := h.le_top.trans h.top_le
  rw [hbefore, ← between_append hbase hi hle]
  exact apply_again ..

/-- **The connection is lost** and the puts from one on will be sent again. -/
lemma Served.lost (h : Served effect data₀ data made base taken top) {i : ℕ} (hbase : base ≤ i)
    (hi : i ≤ taken) : Served effect data₀ data made i i top := by
  refine ⟨le_rfl, hi.trans h.le_top, h.top_le, ⟨data, ?_⟩, ?_⟩
  · rw [between_self, apply_nil]
  · rw [← between_append hi h.le_top h.top_le, apply_append, h.again hbase hi, h.all]

/-- With the puts from one on made once more, all puts are made once. -/
lemma Served.rest (h : Served effect data₀ data made base taken top) {i : ℕ} (hbase : base ≤ i)
    (hi : i ≤ taken) : apply effect data (made.drop i) = apply effect data₀ made := by
  have hsplit : made.drop i = between made i taken ++ between made taken top ++
      between made top made.length := by
    rw [between_append hi h.le_top h.top_le, between_append (hi.trans h.le_top) h.top_le le_rfl,
      between_length]
  rw [hsplit, apply_append, apply_append, h.again hbase hi, h.all, between_length, ← apply_append,
    List.take_append_drop]

/-! ### What a step does -/

variable (effect) in
/-- A put and what the server says to it. -/
def verdict (p : P) : P × Bool := (p, (effect p).isSome)

/-- The connection is lost in this step. -/
def Loses (s : Exchange P Q K V) : Event P Q → Prop
  | .disconnect => True
  | .receive => ∃ requests rn answers restore,
      s.connection.realtime = some ⟨requests, (rn, false) :: answers⟩ ∧
        s.connection.requestCBHash rn = some (.auth restore)
  | _ => False

/-- The connection is not lost while answers are held back. -/
def NoneHeld (s : Exchange P Q K V) (e : Event P Q) : Prop :=
  Loses s e → s.connection.putsToAck = []

/-- What the app hears in a step. -/
inductive Hears (effect : P → Option (List K × Leaves K V)) (s s' : Exchange P Q K V)
    (e : Event P Q) (acked acked' : ℕ) : Prop
  | nothing (acked_eq : acked' = acked) (completed : s'.completed = s.completed)
      (putsToAck : s'.connection.putsToAck = s.connection.putsToAck)
      (unacked : s.connection.unackedListensCount ≤ s'.connection.unackedListensCount ∨ Loses s e)
  | called (p : P) (get : s.made[acked]? = some p) (acked_eq : acked' = acked + 1)
      (unacked : s.connection.unackedListensCount = 0)
      (completed : s'.completed = s.completed ++ [verdict effect p])
      (putsToAck : s'.connection.putsToAck = s.connection.putsToAck)
  | held (p : P) (get : s.made[acked]? = some p) (acked_eq : acked' = acked + 1)
      (unacked : s'.connection.unackedListensCount ≠ 0) (completed : s'.completed = s.completed)
      (putsToAck : s'.connection.putsToAck = s.connection.putsToAck ++ [verdict effect p])
  | released (acked_eq : acked' = acked)
      (completed : s'.completed = s.completed ++ s.connection.putsToAck)
      (putsToAck : s'.connection.putsToAck = [])
  | waits (acked_eq : acked' = acked) (completed : s'.completed = s.completed)
      (putsToAck : s'.connection.putsToAck = s.connection.putsToAck)
      (unacked : s'.connection.unackedListensCount ≠ 0)

/-- What the server takes in a step. -/
inductive Takes (effect : P → Option (List K × Leaves K V)) (s s' : Exchange P Q K V)
    (e : Event P Q) (acked taken taken' : ℕ) : Prop
  | nothing (taken_eq : taken' = taken) (data : s'.data = s.data)
  | put (p : P) (get : s.made[taken]? = some p) (taken_eq : taken' = taken + 1)
      (data : s'.data = apply effect s.data [p])
  | lost (loses : Loses s e) (taken_eq : taken' = acked) (data : s'.data = s.data)

/-- **One step**: what is heard is about the put that is answered, and what the server takes is
the put it has not taken. -/
lemma stepped (hs : Kept effect s.made s.connection acked taken) {e : Event P Q}
    (h : step effect s e = some s') : ∃ acked' taken',
      Kept effect s'.made s'.connection acked' taken' ∧ s.made <+: s'.made ∧
        Hears effect s s' e acked acked' ∧ Takes effect s s' e acked taken taken' := by
  cases e with
  | putData p =>
    cases h
    have hsame := same_putInternal s.connection p
    exact ⟨acked, taken, hs.putInternal p, List.prefix_append ..,
      .nothing rfl rfl hsame.1 (.inl hsame.2), .nothing rfl rfl⟩
  | listen listenSpec =>
    cases h
    have hsame := same_listen s.connection listenSpec
    exact ⟨acked, taken, hs.listen listenSpec, List.prefix_refl _,
      .nothing rfl rfl hsame.1 (.inl hsame.2), .nothing rfl rfl⟩
  | unlisten query =>
    cases h
    have hsame := same_unlisten s.connection query
    exact ⟨acked, taken, hs.unlisten query, List.prefix_refl _,
      .nothing rfl rfl hsame.1 (.inl hsame.2), .nothing rfl rfl⟩
  | refreshAuthToken token =>
    cases h
    have hsame := same_refreshAuthToken s.connection token
    exact ⟨acked, taken, hs.refreshAuthToken token, List.prefix_refl _,
      .nothing rfl rfl hsame.1 (.inl hsame.2), .nothing rfl rfl⟩
  | fetchToken =>
    rw [Exchange.step] at h
    split at h
    · cases h
      exact ⟨acked, taken, hs.wait (.inl ‹_›) (.inr rfl), List.prefix_refl _,
        .nothing rfl rfl rfl (.inl le_rfl), .nothing rfl rfl⟩
    · cases h
  | tokenFetched token =>
    rw [Exchange.step] at h
    split at h
    · cases h
      exact ⟨acked, taken, hs.connect (.inr ‹_›) token, List.prefix_refl _,
        .nothing rfl rfl rfl (.inl le_rfl), .nothing rfl rfl⟩
    · cases h
  | tokenFailed =>
    rw [Exchange.step] at h
    split at h
    · cases h
      exact ⟨acked, taken, hs.wait (.inr ‹_›) (.inl rfl), List.prefix_refl _,
        .nothing rfl rfl rfl (.inl le_rfl), .nothing rfl rfl⟩
    · cases h
  | ready =>
    rw [Exchange.step] at h
    split at h
    · cases h
      have hsame := same_restoreAuth s.connection
      exact ⟨acked, taken, hs.restoreAuth ‹_›, List.prefix_refl _,
        .nothing rfl rfl hsame.1 (.inl hsame.2), .nothing rfl rfl⟩
    · cases h
  | answer position ok =>
    rw [Exchange.step] at h
    split at h
    · cases h
    · rename_i w hw
      obtain ⟨taken', hanswered⟩ := answered hs hw h
      have hheard : Hears effect s s' (.answer position ok) acked acked :=
        .nothing rfl hanswered.completed hanswered.putsToAck
          (.inl hanswered.unackedListensCount.ge)
      refine ⟨acked, taken', hanswered.kept, by rw [hanswered.made], hheard, ?_⟩
      rcases hanswered.data with ⟨htaken, hdata⟩ | ⟨htaken, p, hp, hdata⟩
      · exact .nothing htaken hdata
      · exact .put p hp htaken hdata
  | receive =>
    rw [Exchange.step] at h
    split at h
    · rename_i requests rn ok answers hw
      cases h
      cases hs.receive hw with
      | same hkept hcompleted hacks hunacked =>
        exact ⟨acked, taken, hkept, List.prefix_refl _, .nothing rfl
          (by rw [hcompleted, List.append_nil]) hacks (.inl hunacked), .nothing rfl rfl⟩
      | lost restore hcb hok hkept hcompleted hacks =>
        subst hok
        have hloses : Loses s .receive := ⟨requests, rn, answers, restore, hw, hcb⟩
        exact ⟨acked, acked, hkept, List.prefix_refl _, .nothing rfl
          (by rw [hcompleted, List.append_nil]) hacks (.inr hloses), .lost hloses rfl rfl⟩
      | put p hp hlt hkept hunacked hcompleted =>
        rcases hcompleted with ⟨hzero, hcalled, hacks⟩ | ⟨hne, hcalled, hacks⟩
        · exact ⟨acked + 1, taken, hkept, List.prefix_refl _,
            .called p hp rfl hzero (by rw [hcalled]; rfl) hacks, .nothing rfl rfl⟩
        · exact ⟨acked + 1, taken, hkept, List.prefix_refl _, .held p hp rfl
            (by rw [hunacked]; exact hne) (by rw [hcalled, List.append_nil]) hacks,
              .nothing rfl rfl⟩
      | listen hkept hcompleted =>
        rcases hcompleted with ⟨hzero, hcalled, hacks⟩ | ⟨hne, hcalled, hacks⟩
        · exact ⟨acked, taken, hkept, List.prefix_refl _, .released rfl (by rw [hcalled]) hacks,
            .nothing rfl rfl⟩
        · exact ⟨acked, taken, hkept, List.prefix_refl _, .waits rfl
            (by rw [hcalled, List.append_nil]) hacks hne, .nothing rfl rfl⟩
    · cases h
  | disconnect =>
    cases h
    exact ⟨acked, acked, kept_onDisconnect hs.putCounter (hs.acked_le.trans hs.taken_le)
      hs.outstanding, List.prefix_refl _, .nothing rfl rfl rfl (.inr trivial),
        .lost trivial rfl rfl⟩

omit [DecidableEq Q] [DecidableEq K] in
lemma Hears.acked_le {e : Event P Q} {acked' : ℕ} (h : Hears effect s s' e acked acked') :
    acked ≤ acked' := by
  cases h <;> omega

omit [DecidableEq Q] [DecidableEq K] in
lemma Hears.completed_prefix {e : Event P Q} {acked' : ℕ} (h : Hears effect s s' e acked acked') :
    s.completed <+: s'.completed := by
  cases h with
  | nothing _ hcompleted => exact hcompleted ▸ List.prefix_refl _
  | called p _ _ _ hcompleted => exact hcompleted ▸ List.prefix_append _ _
  | held p _ _ _ hcompleted => exact hcompleted ▸ List.prefix_refl _
  | released _ hcompleted => exact hcompleted ▸ List.prefix_append _ _
  | waits _ hcompleted => exact hcompleted ▸ List.prefix_refl _

/-- Only `putData` makes a put. -/
lemma step_made {e : Event P Q} (he : ∀ p, e ≠ .putData p)
    (h : Exchange.step effect s e = some s') : s'.made = s.made := by
  cases e with
  | putData put => exact absurd rfl (he put)
  | answer position ok =>
    simp only [Exchange.step, answer] at h
    repeat' split at h
    all_goals cases h <;> rfl
  | fetchToken | tokenFetched _ | tokenFailed | ready | receive =>
    rw [Exchange.step] at h
    split at h
    all_goals cases h <;> rfl
  | _ => cases h; rfl

omit [DecidableEq Q] in
/-- What the server has, after a step. -/
lemma Served.step (h : Served effect data₀ s.data s.made base taken top) (hbase : base ≤ acked)
    (hacked : acked ≤ taken) (hmade : s.made <+: s'.made) {e : Event P Q} {taken' : ℕ}
    (htakes : Takes effect s s' e acked taken taken') :
    ∃ base' top', Served effect data₀ s'.data s'.made base' taken' top' ∧
      (base' = base ∨ Loses s e ∧ base' = acked) := by
  have hlater : ∀ {data : Leaves K V} {base taken top : ℕ},
      Served effect data₀ data s.made base taken top →
        Served effect data₀ data s'.made base taken top := by
    obtain ⟨rest, hrest⟩ := hmade
    intro data base taken top hserved
    rw [← hrest]
    exact hserved.later rest
  cases htakes with
  | nothing htaken hdata =>
    rw [htaken, hdata]
    exact ⟨base, top, hlater h, .inl rfl⟩
  | put p hp htaken hdata =>
    obtain ⟨top', hserved⟩ := h.take hp
    rw [htaken, hdata]
    exact ⟨base, top', hlater hserved, .inl rfl⟩
  | lost hloses htaken hdata =>
    rw [htaken, hdata]
    exact ⟨acked, top, hlater (h.lost hbase hacked), .inr ⟨hloses, rfl⟩⟩

/-! ### Runs -/

/-- **The invariant of the client and the server.** -/
def Delivered (effect : P → Option (List K × Leaves K V)) (data₀ : Leaves K V)
    (s : Exchange P Q K V) : Prop :=
  ∃ base acked taken top, base ≤ acked ∧ Kept effect s.made s.connection acked taken ∧
    Served effect data₀ s.data s.made base taken top

lemma Delivered.step (hs : Delivered effect data₀ s) {e : Event P Q}
    (h : step effect s e = some s') : Delivered effect data₀ s' := by
  obtain ⟨base, acked, taken, top, hbase, hkept, hserved⟩ := hs
  obtain ⟨acked', taken', hkept', hmade, hhears, htakes⟩ := stepped hkept h
  obtain ⟨base', top', hserved', hbase'⟩ := hserved.step hbase hkept.acked_le hmade htakes
  have hle := hhears.acked_le
  refine ⟨base', acked', taken', top', ?_, hkept', hserved'⟩
  rcases hbase' with rfl | ⟨-, rfl⟩
  · exact hbase.trans hle
  · exact hle

lemma delivered_run {es : List (Event P Q)}
    (h : run (Exchange.step effect) (init data₀) es = some s) : Delivered effect data₀ s :=
  run_inv (fun _ _ _ hs hstep => hs.step hstep)
    ⟨0, 0, 0, 0, le_rfl, kept_init [] rfl, served_init effect data₀⟩ h

/-- **No put is lost, and none is made late**: whatever was lost on the way and sent again, the
server's data with the unanswered puts made once more is what all the app's puts leave when each
is made once, in the order the app made them. -/
theorem puts_arrive {es : List (Event P Q)}
    (h : run (Exchange.step effect) (init data₀) es = some s) :
    apply effect s.data (s.connection.outstandingPuts.map Prod.snd) =
      apply effect data₀ s.made := by
  obtain ⟨base, acked, taken, top, hbase, hkept, hserved⟩ := delivered_run h
  rw [hkept.outstanding, map_snd_numbered]
  exact hserved.rest hbase hkept.acked_le

/-- A put whose answer is lost, another, and both again. -/
def answerLost : List (Event (ℕ × ℕ) Unit) :=
  [.putData (1, 5), .fetchToken, .tokenFetched none, .ready, .answer 0 true, .disconnect,
    .putData (1, 6), .fetchToken, .tokenFetched none, .ready, .answer 0 true, .receive]

/-- A put of a value under a key. -/
def writes (p : ℕ × ℕ) : Option (List ℕ × Leaves ℕ ℕ) :=
  some ([p.1], fun q => if q = [] then some p.2 else none)

theorem puts_arrive_answerLost : ∃ s,
    run (Exchange.step writes) (init fun _ => none) answerLost = some s ∧
      apply writes s.data (s.connection.outstandingPuts.map Prod.snd) =
        apply writes (fun _ => none) s.made :=
  ⟨_, rfl, puts_arrive (by rfl : run _ (init fun _ => none) answerLost = some _)⟩

/-- The puts that were answered stay the same. -/
lemma take_of_prefix {made' : List P} (h : made <+: made') (hle : acked ≤ made.length) :
    made'.take acked = made.take acked := by
  obtain ⟨rest, rfl⟩ := h
  exact List.take_append_of_le_length hle

omit [DecidableEq K] in
/-- One put more is answered. -/
lemma verdicts_succ {made' : List P} (h : made <+: made') {p : P} (hp : made[acked]? = some p) :
    (made'.take (acked + 1)).map (verdict effect) =
      (made.take acked).map (verdict effect) ++ [verdict effect p] := by
  obtain ⟨hlt, -⟩ := List.getElem?_eq_some_iff.mp hp
  rw [List.take_add_one, getElem?_of_prefix h hp, take_of_prefix h hlt.le, List.map_append]
  rfl

/-- **What the app has heard**, and will hear of the answers that are held back. -/
def Heard (effect : P → Option (List K × Leaves K V)) (s : Exchange P Q K V) : Prop :=
  ∃ acked taken, Kept effect s.made s.connection acked taken ∧
    (s.completed ++ s.connection.putsToAck).Perm ((s.made.take acked).map (verdict effect))

lemma Heard.step (hs : Heard effect s) {e : Event P Q} (h : Exchange.step effect s e = some s') :
    Heard effect s' := by
  obtain ⟨acked, taken, hkept, hperm⟩ := hs
  obtain ⟨acked', taken', hkept', hmade, hhears, -⟩ := stepped hkept h
  have htake := take_of_prefix hmade (hkept.acked_le.trans hkept.taken_le)
  refine ⟨acked', taken', hkept', ?_⟩
  cases hhears with
  | nothing hacked hcompleted hacks =>
    rw [hacked, htake, hcompleted, hacks]
    exact hperm
  | called p hp hacked hzero hcompleted hacks =>
    rw [hacked, verdicts_succ hmade hp, hcompleted, hacks, List.append_assoc]
    refine List.Perm.trans ?_ (hperm.append_right _)
    rw [List.append_assoc]
    exact List.perm_append_comm.append_left _
  | held p hp hacked hne hcompleted hacks =>
    rw [hacked, verdicts_succ hmade hp, hcompleted, hacks, ← List.append_assoc]
    exact hperm.append_right _
  | released hacked hcompleted hacks =>
    rw [hacked, htake, hcompleted, hacks, List.append_nil]
    exact hperm
  | waits hacked hcompleted hacks hne =>
    rw [hacked, htake, hcompleted, hacks]
    exact hperm

/-- **Each put is heard of once**: the puts that are not outstanding are those the app has heard
of, or will hear of once a listen is answered, each with the server's verdict. -/
theorem heard_once {es : List (Event P Q)}
    (h : run (Exchange.step effect) (init data₀) es = some s) :
    ∃ acked, s.connection.outstandingPuts.map Prod.snd = s.made.drop acked ∧
      (s.completed ++ s.connection.putsToAck).Perm
        ((s.made.take acked).map (verdict effect)) := by
  have hheard : Heard effect s := by
    refine run_inv (fun _ _ _ hs hstep => hs.step hstep) ?_ h
    exact ⟨0, 0, kept_init [] rfl, List.Perm.refl _⟩
  obtain ⟨acked, taken, hkept, hperm⟩ := hheard
  exact ⟨acked, by rw [hkept.outstanding, map_snd_numbered], hperm⟩

theorem heard_once_answerLost : ∃ s,
    run (Exchange.step writes) (init fun _ => none) answerLost = some s ∧
      ∃ acked, s.connection.outstandingPuts.map Prod.snd = s.made.drop acked ∧
        (s.completed ++ s.connection.putsToAck).Perm ((s.made.take acked).map (verdict writes)) :=
  ⟨_, rfl, heard_once (by rfl : run _ (init fun _ => none) answerLost = some _)⟩

/-- **The invariant of runs where no answer is held back** when the connection is lost. -/
structure InOrder (effect : P → Option (List K × Leaves K V)) (data₀ : Leaves K V)
    (s : Exchange P Q K V) (base acked taken top : ℕ) : Prop where
  kept : Kept effect s.made s.connection acked taken
  served : Served effect data₀ s.data s.made base taken top
  base_le : base ≤ s.completed.length
  heard : s.completed ++ s.connection.putsToAck = (s.made.take acked).map (verdict effect)
  none_held : s.connection.unackedListensCount = 0 → s.connection.putsToAck = []

omit [DecidableEq Q] in
lemma InOrder.completed_le (hs : InOrder effect data₀ s base acked taken top) :
    s.completed.length ≤ acked := by
  have hlen := congrArg List.length hs.heard
  rw [List.length_append, List.length_map, List.length_take] at hlen
  omega

omit [DecidableEq Q] in
lemma InOrder.completed_eq (hs : InOrder effect data₀ s base acked taken top) :
    s.completed = (s.made.take s.completed.length).map (verdict effect) := by
  have hprefix : s.completed <+: (s.made.take acked).map (verdict effect) :=
    ⟨_, hs.heard⟩
  have htake := List.prefix_iff_eq_take.mp hprefix
  rw [← List.map_take, List.take_take, Nat.min_eq_left hs.completed_le] at htake
  exact htake

lemma InOrder.step (hs : InOrder effect data₀ s base acked taken top) {e : Event P Q}
    (he : NoneHeld s e) (h : Exchange.step effect s e = some s') :
    ∃ base' acked' taken' top', InOrder effect data₀ s' base' acked' taken' top' := by
  obtain ⟨acked', taken', hkept', hmade, hhears, htakes⟩ := stepped hs.kept h
  obtain ⟨base', top', hserved', hbase'⟩ := hs.served.step (hs.base_le.trans hs.completed_le)
    hs.kept.acked_le hmade htakes
  have htake := take_of_prefix hmade (hs.kept.acked_le.trans hs.kept.taken_le)
  have hbase : base' ≤ s.completed.length := by
    rcases hbase' with rfl | ⟨hloses, rfl⟩
    · exact hs.base_le
    · have hlen := congrArg List.length hs.heard
      rw [he hloses, List.append_nil, List.length_map, List.length_take] at hlen
      have hle := hs.kept.acked_le.trans hs.kept.taken_le
      omega
  refine ⟨base', acked', taken', top', ?_⟩
  cases hhears with
  | nothing hacked hcompleted hacks hunacked =>
    refine ⟨hkept', hserved', by rw [hcompleted]; exact hbase, ?_, fun hzero => ?_⟩
    · rw [hacked, htake, hcompleted, hacks, hs.heard]
    · rw [hacks]
      rcases hunacked with hunacked | hloses
      · exact hs.none_held (by omega)
      · exact he hloses
  | called p hp hacked hzero hcompleted hacks =>
    have hnil := hs.none_held hzero
    have hheard := hs.heard
    rw [hnil, List.append_nil] at hheard
    refine ⟨hkept', hserved', ?_, ?_, fun _ => by rw [hacks, hnil]⟩
    · rw [hcompleted, List.length_append]
      omega
    · rw [hacked, verdicts_succ hmade hp, hcompleted, hacks, hnil, List.append_nil, hheard]
  | held p hp hacked hne hcompleted hacks =>
    refine ⟨hkept', hserved', by rw [hcompleted]; exact hbase, ?_, fun hzero => absurd hzero hne⟩
    rw [hacked, verdicts_succ hmade hp, hcompleted, hacks, ← List.append_assoc, hs.heard]
  | released hacked hcompleted hacks =>
    refine ⟨hkept', hserved', ?_, ?_, fun _ => hacks⟩
    · rw [hcompleted, List.length_append]
      omega
    · rw [hacked, htake, hcompleted, hacks, List.append_nil, hs.heard]
  | waits hacked hcompleted hacks hne =>
    refine ⟨hkept', hserved', by rw [hcompleted]; exact hbase, ?_, fun hzero => absurd hzero hne⟩
    rw [hacked, htake, hcompleted, hacks, hs.heard]

omit [DecidableEq Q] in
lemma inOrder_init (effect : P → Option (List K × Leaves K V)) (data : Leaves K V) :
    InOrder effect data (init data : Exchange P Q K V) 0 0 0 0 :=
  ⟨kept_init [] rfl, served_init effect data, le_rfl, rfl, fun _ => rfl⟩

lemma inOrder_run {es : List (Event P Q)}
    (hes : Along (Exchange.step effect) NoneHeld (init data₀) es)
    (h : run (Exchange.step effect) (init data₀) es = some s) :
    ∃ base acked taken top, InOrder effect data₀ s base acked taken top :=
  run_inv_along (I := fun s => ∃ base acked taken top, InOrder effect data₀ s base acked taken top)
    (fun _ _ _ ⟨_, _, _, _, hs⟩ he hstep => hs.step he hstep)
    ⟨0, 0, 0, 0, inOrder_init effect data₀⟩ hes h

/-- **The app hears in order**, in runs where the connection is not lost while answers are held
back: it has heard of the first puts it made, in their order. -/
theorem heard_in_order {es : List (Event P Q)}
    (hes : Along (Exchange.step effect) NoneHeld (init data₀) es)
    (h : run (Exchange.step effect) (init data₀) es = some s) :
    s.completed = (s.made.take s.completed.length).map (verdict effect) := by
  obtain ⟨base, acked, taken, top, hs⟩ := inOrder_run hes h
  exact hs.completed_eq

lemma noneHeld_answerLost :
    Along (Exchange.step writes) NoneHeld (init fun _ => none) answerLost := by
  iterate 12
    refine ⟨fun _ => rfl, ?_⟩
    rintro _ ⟨⟩
  trivial

theorem heard_in_order_answerLost : ∃ s,
    run (Exchange.step writes) (init fun _ => none) answerLost = some s ∧
      s.completed = (s.made.take s.completed.length).map (verdict writes) :=
  ⟨_, rfl, heard_in_order noneHeld_answerLost rfl⟩

end Solta.Exchange
