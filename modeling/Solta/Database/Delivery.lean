import Solta.Database.Connection
import Mathlib.Data.List.Perm.Basic

/-!
No put is lost.

What waits for an answer is followed from the client's table of blocks over the requests and the
answers on the way. The puts that are not answered are the last of the puts the app made; those
that are on the way are on it in their order, and behind none that are not.
-/

namespace Solta

open Lib Overwrite Run

variable {P Q K V : Type}

namespace FPersistentConnection.Callback

def inOrder : Callback Q → Bool
  | .listen _ => false
  | _ => true

def putIndex : Callback Q → Option ℕ
  | .put index => some index
  | _ => none

end FPersistentConnection.Callback

namespace FPersistentConnection

/-- The blocks for puts and credentials that wait for answers with the given numbers. -/
def waiting (cb : ℕ → Option (Callback Q)) (numbers : List ℕ) : List (Callback Q) :=
  numbers.filterMap fun rn => (cb rn).filter Callback.inOrder

/-- The block that fits a request. -/
def Fits (made : List P) : Option (Callback Q) → Action P Q → Prop
  | some (.auth _), .auth _ => True
  | some (.put index), .put p => made[index]? = some p
  | some (.listen _), .listen _ => True
  | none, .unauth | none, .unlisten _ => True
  | _, _ => False

/-- **What is on the way**: `down` waits for the answers, `up` for the requests. -/
structure Carried (effect : P → Option (List K × Leaves K V)) (made : List P)
    (c : FPersistentConnection P Q) (w : FConnection P Q) (down up : List (Callback Q)) : Prop where
  unused : ∀ rn, c.requestNumber ≤ rn → c.requestCBHash rn = none
  fresh : ∀ rn ∈ w.answers.map Prod.fst ++ w.requests.map Prod.fst, rn < c.requestNumber
  nodup : (w.answers.map Prod.fst ++ w.requests.map Prod.fst).Nodup
  fits : ∀ e ∈ w.requests, Fits made (c.requestCBHash e.1) e.2
  truthful : ∀ e ∈ w.answers, ∀ index, c.requestCBHash e.1 = some (.put index) →
    ∃ p, made[index]? = some p ∧ e.2 = (effect p).isSome
  down_eq : waiting c.requestCBHash (w.answers.map Prod.fst) = down
  up_eq : waiting c.requestCBHash (w.requests.map Prod.fst) = up

/-- What waits, by the state of the connection: `acked` puts are answered, `taken` are taken by the
server, `made` are made. -/
def InState (down up : List (Callback Q)) (acked taken made : ℕ) : ConnectionState → Prop
  | .connecting => taken = acked ∧ down = [] ∧ up = []
  | .authenticating => taken = acked ∧
      ∃ rest, down ++ up = .auth true :: rest ∧ ∀ b ∈ rest, b = .auth false
  | .connected => down.filterMap Callback.putIndex = List.range' acked (taken - acked) ∧
      up.filterMap Callback.putIndex = List.range' taken (made - taken) ∧
      .auth true ∉ down ++ up
  | _ => False

/-- The link to the server. -/
def Link (effect : P → Option (List K × Leaves K V)) (made : List P)
    (c : FPersistentConnection P Q) (acked taken : ℕ) : Prop :=
  match c.realtime with
  | none => taken = acked ∧ (∀ rn, c.requestCBHash rn = none) ∧
      (c.connectionState = .disconnected ∨ c.connectionState = .gettingToken)
  | some w => ∃ down up, Carried effect made c w down up ∧
      InState down up acked taken made.length c.connectionState

/-- Puts by their indices. -/
def numbered : ℕ → List P → List (ℕ × P)
  | _, [] => []
  | index, p :: ps => (index, p) :: numbered (index + 1) ps

/-- **The client**: the puts that are not answered are the last of those that were made. -/
structure Kept (effect : P → Option (List K × Leaves K V)) (made : List P)
    (c : FPersistentConnection P Q) (acked taken : ℕ) : Prop where
  putCounter : c.putCounter = made.length
  acked_le : acked ≤ taken
  taken_le : taken ≤ made.length
  outstanding : c.outstandingPuts = numbered acked (made.drop acked)
  link : Link effect made c acked taken

variable {effect : P → Option (List K × Leaves K V)} {made : List P}
  {c : FPersistentConnection P Q} {w : FConnection P Q} {down up : List (Callback Q)}
  {cb : ℕ → Option (Callback Q)} {acked taken : ℕ}

/-! ### What waits -/

@[simp] lemma waiting_nil (cb : ℕ → Option (Callback Q)) : waiting cb [] = [] := rfl

lemma waiting_append (cb : ℕ → Option (Callback Q)) (ns ms : List ℕ) :
    waiting cb (ns ++ ms) = waiting cb ns ++ waiting cb ms := List.filterMap_append

lemma waiting_cons (cb : ℕ → Option (Callback Q)) (rn : ℕ) (ns : List ℕ) :
    waiting cb (rn :: ns) = ((cb rn).filter Callback.inOrder).toList ++ waiting cb ns := by
  rw [waiting, List.filterMap_cons]
  cases (cb rn).filter Callback.inOrder <;> rfl

/-- A number that is not on the way. -/
lemma waiting_update {ns : List ℕ} {rn : ℕ} (h : rn ∉ ns) (b : Option (Callback Q)) :
    waiting (Function.update cb rn b) ns = waiting cb ns := by
  refine List.filterMap_congr fun n hn => ?_
  have hne : n ≠ rn := fun heq => h (heq ▸ hn)
  rw [Function.update_of_ne hne]

lemma getElem?_of_prefix {made' : List P} (h : made <+: made') {index : ℕ} {p : P}
    (hp : made[index]? = some p) : made'[index]? = some p := by
  obtain ⟨rest, rfl⟩ := h
  rw [List.getElem?_append_left (List.getElem?_eq_some_iff.mp hp).1, hp]

lemma Fits.mono {made' : List P} (h : made <+: made') {callback : Option (Callback Q)}
    {action : Action P Q} (hfits : Fits made callback action) : Fits made' callback action :=
  match callback, action, hfits with
  | some (.put _), .put _, hput => getElem?_of_prefix h hput
  | some (.auth _), .auth _, _ => trivial
  | some (.listen _), .listen _, _ => trivial
  | none, .unauth, _ => trivial
  | none, .unlisten _, _ => trivial

lemma Carried.mono {made' : List P} (h : made <+: made') (hc : Carried effect made c w down up) :
    Carried effect made' c w down up where
  unused := hc.unused
  fresh := hc.fresh
  nodup := hc.nodup
  fits e he := (hc.fits e he).mono h
  truthful e he index hi := by
    obtain ⟨p, hp, heq⟩ := hc.truthful e he index hi
    exact ⟨p, getElem?_of_prefix h hp, heq⟩
  down_eq := hc.down_eq
  up_eq := hc.up_eq

/-! ### Requests are sent -/

lemma sendAction_requestCBHash (h : ∀ rn, c.requestNumber ≤ rn → c.requestCBHash rn = none)
    (action : Action P Q) (callback : Option (Callback Q)) :
    (c.sendAction action callback).requestCBHash =
      Function.update c.requestCBHash c.requestNumber callback := by
  cases callback with
  | none => exact (Function.update_eq_self_iff.mpr (h _ le_rfl).symm).symm
  | some b => rfl

/-- **A request that is sent** is the last on the way. -/
lemma Carried.sendAction (hc : Carried effect made c w down up) (hw : c.realtime = some w)
    (action : Action P Q) (callback : Option (Callback Q)) (hfits : Fits made callback action) :
    ∃ w', (c.sendAction action callback).realtime = some w' ∧
      Carried effect made (c.sendAction action callback) w' down
        (up ++ (callback.filter Callback.inOrder).toList) := by
  have hnot : c.requestNumber ∉ w.answers.map Prod.fst ++ w.requests.map Prod.fst :=
    fun h => lt_irrefl _ (hc.fresh _ h)
  obtain ⟨hanswers, hrequests⟩ := not_or.mp (mt List.mem_append.mpr hnot)
  have hcb := sendAction_requestCBHash hc.unused action callback
  have hne : ∀ {e : ℕ × Bool}, e ∈ w.answers → e.1 ≠ c.requestNumber :=
    fun he heq => hanswers (heq ▸ List.mem_map_of_mem he)
  have hne' : ∀ {e : ℕ × Action P Q}, e ∈ w.requests → e.1 ≠ c.requestNumber :=
    fun he heq => hrequests (heq ▸ List.mem_map_of_mem he)
  refine ⟨⟨w.requests ++ [(c.requestNumber, action)], w.answers⟩, ?_, ?_⟩
  · simp [FPersistentConnection.sendAction, hw]
  · refine ⟨fun rn hrn => ?_, fun rn hrn => ?_, ?_, fun e he => ?_, fun e he index hi => ?_, ?_, ?_⟩
    · have hlt : c.requestNumber < rn := hrn
      rw [hcb, Function.update_of_ne hlt.ne', hc.unused rn hlt.le]
    · rw [List.map_append, ← List.append_assoc] at hrn
      rcases List.mem_append.mp hrn with hrn | hrn
      · exact Nat.lt_succ_of_lt (hc.fresh rn hrn)
      · rw [List.mem_singleton.mp hrn]
        exact Nat.lt_succ_self _
    · rw [List.map_append, ← List.append_assoc]
      exact hc.nodup.append (List.nodup_singleton _) (List.disjoint_singleton.mpr hnot)
    · rw [hcb]
      rcases List.mem_append.mp he with he | he
      · rw [Function.update_of_ne (hne' he)]
        exact hc.fits e he
      · rw [List.mem_singleton.mp he, Function.update_self]
        exact hfits
    · rw [hcb, Function.update_of_ne (hne he)] at hi
      exact hc.truthful e he index hi
    · rw [hcb, waiting_update hanswers, hc.down_eq]
    · rw [hcb, List.map_append, waiting_append, waiting_update hrequests, hc.up_eq, List.map_cons,
        waiting_cons, Function.update_self, List.map_nil, waiting_nil, List.append_nil]

lemma Carried.sendPut (hc : Carried effect made c w down up) (hw : c.realtime = some w)
    (index : ℕ) {p : P} (hlookup : c.outstandingPuts.lookup index = some p)
    (hp : made[index]? = some p) :
    ∃ w', (c.sendPut index).realtime = some w' ∧
      Carried effect made (c.sendPut index) w' down (up ++ [.put index]) := by
  rw [FPersistentConnection.sendPut, hlookup]
  exact hc.sendAction hw (.put p) (some (.put index)) hp

/-- What sending leaves as it is. -/
structure Same (c c' : FPersistentConnection P Q) : Prop where
  connectionState : c'.connectionState = c.connectionState
  authToken : c'.authToken = c.authToken
  listens : c'.listens = c.listens
  outstandingPuts : c'.outstandingPuts = c.outstandingPuts
  putCounter : c'.putCounter = c.putCounter
  putsToAck : c'.putsToAck = c.putsToAck
  unacked : c.unackedListensCount ≤ c'.unackedListensCount

lemma Same.refl (c : FPersistentConnection P Q) : Same c c :=
  ⟨rfl, rfl, rfl, rfl, rfl, rfl, le_rfl⟩

lemma Same.trans {c₁ c₂ c₃ : FPersistentConnection P Q} (h : Same c₁ c₂) (h' : Same c₂ c₃) :
    Same c₁ c₃ :=
  ⟨h'.1.trans h.1, h'.2.trans h.2, h'.3.trans h.3, h'.4.trans h.4, h'.5.trans h.5, h'.6.trans h.6,
    h.7.trans h'.7⟩

lemma same_sendAction (c : FPersistentConnection P Q) (action : Action P Q)
    (callback : Option (Callback Q)) : Same c (c.sendAction action callback) :=
  ⟨rfl, rfl, rfl, rfl, rfl, rfl, le_rfl⟩

lemma same_sendPut (c : FPersistentConnection P Q) (index : ℕ) : Same c (c.sendPut index) := by
  unfold FPersistentConnection.sendPut
  split
  · exact same_sendAction ..
  · exact .refl c

lemma same_sendListen (c : FPersistentConnection P Q) (listenSpec : FOutstandingQuery Q) :
    Same c (c.sendListen listenSpec) := ⟨rfl, rfl, rfl, rfl, rfl, rfl, Nat.le_succ _⟩

lemma same_foldl {α : Type} {f : FPersistentConnection P Q → α → FPersistentConnection P Q}
    (hf : ∀ c a, Same c (f c a)) (as : List α) (c : FPersistentConnection P Q) :
    Same c (as.foldl f c) := by
  induction as generalizing c with
  | nil => exact .refl c
  | cons a as ih => exact (hf c a).trans (ih (f c a))

lemma same_restoreState (c : FPersistentConnection P Q) : Same c c.restoreState :=
  (same_foldl same_sendListen c.listens c).trans (same_foldl same_sendPut _ _)

/-! What the app's calls leave as it is. -/

lemma same_putInternal (c : FPersistentConnection P Q) (p : P) :
    (c.putInternal p).putsToAck = c.putsToAck ∧
      c.unackedListensCount ≤ (c.putInternal p).unackedListensCount := by
  unfold FPersistentConnection.putInternal
  dsimp only
  split
  · have hsame := same_sendPut { c with
      putCounter := c.putCounter + 1
      outstandingPuts := c.outstandingPuts ++ [(c.putCounter, p)] } c.putCounter
    exact ⟨hsame.putsToAck, hsame.unacked⟩
  · exact ⟨rfl, le_rfl⟩

lemma same_listen (c : FPersistentConnection P Q) (listenSpec : FOutstandingQuery Q) :
    (c.listen listenSpec).putsToAck = c.putsToAck ∧
      c.unackedListensCount ≤ (c.listen listenSpec).unackedListensCount := by
  unfold FPersistentConnection.listen
  dsimp only
  split
  · exact ⟨rfl, Nat.le_succ _⟩
  · exact ⟨rfl, le_rfl⟩

lemma same_unlisten [DecidableEq Q] (c : FPersistentConnection P Q) (query : Q) :
    (c.unlisten query).putsToAck = c.putsToAck ∧
      c.unackedListensCount ≤ (c.unlisten query).unackedListensCount := by
  unfold FPersistentConnection.unlisten
  dsimp only
  split <;> exact ⟨rfl, le_rfl⟩

lemma same_refreshAuthToken (c : FPersistentConnection P Q) (token : Option String) :
    (c.refreshAuthToken token).putsToAck = c.putsToAck ∧
      c.unackedListensCount ≤ (c.refreshAuthToken token).unackedListensCount := by
  unfold FPersistentConnection.refreshAuthToken
  dsimp only
  split
  · cases token <;> exact ⟨rfl, le_rfl⟩
  · exact ⟨rfl, le_rfl⟩

lemma same_restoreAuth (c : FPersistentConnection P Q) :
    c.restoreAuth.putsToAck = c.putsToAck ∧
      c.unackedListensCount ≤ c.restoreAuth.unackedListensCount := by
  unfold FPersistentConnection.restoreAuth
  split
  · have hsame := same_restoreState { c with connectionState := .connected }
    exact ⟨hsame.putsToAck, hsame.unacked⟩
  · exact ⟨rfl, le_rfl⟩

/-- What counts the listens is not on the way. -/
lemma Carried.sendListen (hc : Carried effect made c w down up) (hw : c.realtime = some w)
    (listenSpec : FOutstandingQuery Q) :
    ∃ w', (c.sendListen listenSpec).realtime = some w' ∧
      Carried effect made (c.sendListen listenSpec) w' down up := by
  obtain ⟨w', hw', hc'⟩ := hc.sendAction hw (.listen listenSpec.query)
    (some (.listen listenSpec)) trivial
  rw [Option.filter_some_neg (by simp [Callback.inOrder]), Option.toList_none,
    List.append_nil] at hc'
  exact ⟨w', hw', ⟨hc'.unused, hc'.fresh, hc'.nodup, hc'.fits, hc'.truthful, hc'.down_eq,
    hc'.up_eq⟩⟩

lemma carried_listens (ls : List (FOutstandingQuery Q)) (hc : Carried effect made c w down up)
    (hw : c.realtime = some w) :
    ∃ w', (ls.foldl FPersistentConnection.sendListen c).realtime = some w' ∧
      Carried effect made (ls.foldl FPersistentConnection.sendListen c) w' down up := by
  induction ls generalizing c w with
  | nil => exact ⟨w, hw, hc⟩
  | cons l ls ih =>
    obtain ⟨w', hw', hc'⟩ := hc.sendListen hw l
    exact ih hc' hw'

lemma carried_puts (indices : List ℕ) (hc : Carried effect made c w down up)
    (hw : c.realtime = some w)
    (hlookup : ∀ index ∈ indices, ∃ p, c.outstandingPuts.lookup index = some p ∧
      made[index]? = some p) :
    ∃ w', (indices.foldl FPersistentConnection.sendPut c).realtime = some w' ∧
      Carried effect made (indices.foldl FPersistentConnection.sendPut c) w' down
        (up ++ indices.map .put) := by
  induction indices generalizing c w up with
  | nil => exact ⟨w, hw, by simpa using hc⟩
  | cons index indices ih =>
    obtain ⟨p, hp, hmade⟩ := hlookup index (by simp)
    obtain ⟨w', hw', hc'⟩ := hc.sendPut hw index hp hmade
    obtain ⟨w'', hw'', hc''⟩ := ih hc' hw' fun i hi => by
      rw [(same_sendPut c index).outstandingPuts]
      exact hlookup i (by simp [hi])
    refine ⟨w'', hw'', ?_⟩
    rwa [List.append_assoc] at hc''

/-! ### The puts that are not answered -/

lemma map_fst_numbered (index : ℕ) (ps : List P) :
    (numbered index ps).map Prod.fst = List.range' index ps.length := by
  induction ps generalizing index with
  | nil => rfl
  | cons p ps ih => rw [numbered, List.map_cons, ih, List.length_cons, List.range'_succ]

lemma map_snd_numbered (index : ℕ) (ps : List P) : (numbered index ps).map Prod.snd = ps := by
  induction ps generalizing index with
  | nil => rfl
  | cons p ps ih => rw [numbered, List.map_cons, ih]

lemma numbered_append (index : ℕ) (ps : List P) (p : P) :
    numbered index (ps ++ [p]) = numbered index ps ++ [(index + ps.length, p)] := by
  induction ps generalizing index with
  | nil => rfl
  | cons q ps ih =>
    rw [List.cons_append, numbered, ih, numbered, List.length_cons, List.cons_append,
      Nat.add_right_comm, Nat.add_assoc]

lemma lookup_numbered (index i : ℕ) (ps : List P) :
    (numbered index ps).lookup (index + i) = ps[i]? := by
  induction ps generalizing index i with
  | nil => rfl
  | cons p ps ih =>
    cases i with
    | zero => simp [numbered]
    | succ i =>
      have hne : (index + (i + 1) == index) = false := by simp
      have hsucc : index + 1 + i = index + (i + 1) := by omega
      rw [numbered, List.lookup_cons, hne, List.getElem?_cons_succ, ← ih (index + 1) i, hsucc]

/-- The first put is answered. -/
lemma filter_numbered (index : ℕ) (p : P) (ps : List P) :
    (numbered index (p :: ps)).filter (fun e => e.1 ≠ index) = numbered (index + 1) ps := by
  have hlater : ∀ e ∈ numbered (index + 1) ps, index < e.1 := by
    intro e he
    have hmem := List.mem_map_of_mem (f := Prod.fst) he
    rw [map_fst_numbered, List.mem_range'_1] at hmem
    omega
  rw [numbered, List.filter_cons, if_neg (by simp), List.filter_eq_self]
  exact fun e he => decide_eq_true (hlater e he).ne'

section restored

variable (houtstanding : c.outstandingPuts = numbered acked (made.drop acked))

include houtstanding

lemma lookup_outstanding {index : ℕ} (h : acked ≤ index) :
    c.outstandingPuts.lookup index = made[index]? := by
  obtain ⟨i, rfl⟩ := Nat.exists_eq_add_of_le h
  rw [houtstanding, lookup_numbered, List.getElem?_drop]

/-- The keys of the puts are in order already. -/
lemma keys_outstanding : (c.outstandingPuts.map Prod.fst).insertionSort (· ≤ ·) =
    List.range' acked (made.length - acked) := by
  rw [houtstanding, map_fst_numbered, List.length_drop]
  have hlt : (List.range' acked (made.length - acked)).Pairwise (· < ·) := List.pairwise_lt_range'
  exact (hlt.imp le_of_lt).insertionSort_eq

/-- **The state is restored**: the puts that are not answered are sent, in their order. -/
lemma Carried.restoreState (hw : c.realtime = some w)
    (hcarried : Carried effect made c w down up) :
    ∃ w', c.restoreState.realtime = some w' ∧ Carried effect made c.restoreState w' down
      (up ++ (List.range' acked (made.length - acked)).map .put) := by
  have hsame := same_foldl same_sendListen c.listens c
  obtain ⟨w', hw', hcarried'⟩ := carried_listens c.listens hcarried hw
  have hlookup : ∀ index ∈ List.range' acked (made.length - acked), ∃ p,
      (c.listens.foldl FPersistentConnection.sendListen c).outstandingPuts.lookup index = some p ∧
        made[index]? = some p := by
    intro index hindex
    rw [List.mem_range'_1] at hindex
    have hget : made[index]? = some made[index] := List.getElem?_eq_getElem (by omega)
    exact ⟨_, by rw [hsame.outstandingPuts, lookup_outstanding houtstanding hindex.1, hget], hget⟩
  have hkeys : ((c.listens.foldl FPersistentConnection.sendListen c).outstandingPuts.map
      Prod.fst).insertionSort (· ≤ ·) = List.range' acked (made.length - acked) := by
    rw [hsame.outstandingPuts, keys_outstanding houtstanding]
  rw [FPersistentConnection.restoreState, hkeys]
  exact carried_puts _ hcarried' hw' hlookup

end restored

/-! ### What the client does -/

/-- Only the numbers and the blocks matter for what is on the way. -/
lemma Carried.congr {c' : FPersistentConnection P Q} (hc : Carried effect made c w down up)
    (hnumber : c'.requestNumber = c.requestNumber)
    (hcb : c'.requestCBHash = c.requestCBHash) : Carried effect made c' w down up where
  unused := by rw [hnumber, hcb]; exact hc.unused
  fresh := by rw [hnumber]; exact hc.fresh
  nodup := hc.nodup
  fits := by rw [hcb]; exact hc.fits
  truthful := by rw [hcb]; exact hc.truthful
  down_eq := by rw [hcb]; exact hc.down_eq
  up_eq := by rw [hcb]; exact hc.up_eq

lemma Link.exists_of_connected (hc : Link effect made c acked taken) (h : c.connected = true) :
    ∃ w down up, c.realtime = some w ∧ Carried effect made c w down up ∧
      InState down up acked taken made.length c.connectionState := by
  unfold Link at hc
  split at hc
  · obtain ⟨-, -, hstate | hstate⟩ := hc <;> simp [FPersistentConnection.connected, hstate] at h
  · rename_i w hw
    obtain ⟨down, up, hcarried, hstate⟩ := hc
    exact ⟨w, down, up, hw, hcarried, hstate⟩

/-- A token that is sent again is behind what waits. -/
lemma InState.append {n : ℕ} {state : ConnectionState} {more : List (Callback Q)}
    (h : InState down up acked taken n state)
    (hstate : state = .authenticating ∨ state = .connected)
    (hmore : ∀ b ∈ more, b = .auth false) : InState down (up ++ more) acked taken n state := by
  have hputs : more.filterMap Callback.putIndex = [] := by
    refine List.filterMap_eq_nil_iff.mpr fun b hb => ?_
    rw [hmore b hb]
    rfl
  rcases hstate with rfl | rfl
  · obtain ⟨htaken, rest, hrest, hall⟩ := h
    refine ⟨htaken, rest ++ more, by rw [← List.append_assoc, hrest, List.cons_append], ?_⟩
    intro b hb
    rcases List.mem_append.mp hb with hb | hb
    · exact hall b hb
    · exact hmore b hb
  · obtain ⟨hdown, hup, hnot⟩ := h
    refine ⟨hdown, by rw [List.filterMap_append, hputs, List.append_nil, hup], fun hmem => ?_⟩
    rw [← List.append_assoc] at hmem
    rcases List.mem_append.mp hmem with hmem | hmem
    · exact hnot hmem
    · cases hmore _ hmem

/-- A request that is no put is sent. -/
lemma Kept.sendAction (hc : Kept effect made c acked taken) (h : c.connected = true)
    {action : Action P Q} {callback : Option (Callback Q)} (hfits : Fits made callback action)
    (hmore : ∀ b ∈ (callback.filter Callback.inOrder).toList, b = .auth false) :
    Kept effect made (c.sendAction action callback) acked taken := by
  obtain ⟨w, down, up, hw, hcarried, hstate⟩ := hc.link.exists_of_connected h
  obtain ⟨w', hw', hcarried'⟩ := hcarried.sendAction hw action callback hfits
  refine ⟨hc.putCounter, hc.acked_le, hc.taken_le, hc.outstanding, ?_⟩
  unfold Link
  rw [hw']
  refine ⟨down, _, hcarried', hstate.append ?_ hmore⟩
  simpa [FPersistentConnection.connected] using h

/-- What the puts and the connection do not depend on. -/
lemma Kept.congr {c' : FPersistentConnection P Q} (hc : Kept effect made c acked taken)
    (hcounter : c'.putCounter = c.putCounter) (houtstanding : c'.outstandingPuts =
      c.outstandingPuts)
    (hnumber : c'.requestNumber = c.requestNumber) (hcb : c'.requestCBHash = c.requestCBHash)
    (hrealtime : c'.realtime = c.realtime) (hstate : c'.connectionState = c.connectionState) :
    Kept effect made c' acked taken := by
  refine ⟨hcounter.trans hc.putCounter, hc.acked_le, hc.taken_le,
    houtstanding.trans hc.outstanding, ?_⟩
  have hlink := hc.link
  unfold Link at hlink ⊢
  rw [hrealtime, hstate, hcb]
  cases hw : c.realtime with
  | none => simpa only [hw] using hlink
  | some w =>
    simp only [hw] at hlink ⊢
    obtain ⟨down, up, hcarried, hin⟩ := hlink
    exact ⟨down, up, hcarried.congr hnumber hcb, hin⟩

lemma Kept.sendListen (hc : Kept effect made c acked taken) (h : c.connected = true)
    (listenSpec : FOutstandingQuery Q) :
    Kept effect made (c.sendListen listenSpec) acked taken := by
  have hsent : Kept effect made
      (c.sendAction (.listen listenSpec.query) (some (.listen listenSpec))) acked taken :=
    hc.sendAction h trivial (by simp [Option.filter, Callback.inOrder])
  exact hsent.congr rfl rfl rfl rfl rfl rfl

lemma Kept.listen (hc : Kept effect made c acked taken) (listenSpec : FOutstandingQuery Q) :
    Kept effect made (c.listen listenSpec) acked taken := by
  have hadded : Kept effect made { c with listens := c.listens ++ [listenSpec] } acked taken :=
    hc.congr rfl rfl rfl rfl rfl rfl
  rw [FPersistentConnection.listen]
  split
  · exact hadded.sendListen ‹_› listenSpec
  · exact hadded

lemma Kept.unlisten [DecidableEq Q] (hc : Kept effect made c acked taken) (query : Q) :
    Kept effect made (c.unlisten query) acked taken := by
  have hremoved : Kept effect made (c.removeListen query) acked taken :=
    hc.congr rfl rfl rfl rfl rfl rfl
  rw [FPersistentConnection.unlisten]
  split
  · rename_i h
    exact hremoved.sendAction (Bool.and_eq_true_iff.mp h).2 trivial (by simp)
  · exact hremoved

lemma Kept.refreshAuthToken (hc : Kept effect made c acked taken) (token : Option String) :
    Kept effect made (c.refreshAuthToken token) acked taken := by
  have hset : Kept effect made { c with authToken := token } acked taken :=
    hc.congr rfl rfl rfl rfl rfl rfl
  unfold FPersistentConnection.refreshAuthToken
  dsimp only
  split_ifs with h
  · cases token with
    | none => exact hset.sendAction h trivial (by simp)
    | some credential =>
      exact hset.sendAction h trivial (by simp [Option.filter, Callback.inOrder])
  · exact hset

/-- **A put** is one put more that is not answered. -/
lemma Kept.putInternal (hc : Kept effect made c acked taken) (p : P) :
    Kept effect (made ++ [p]) (c.putInternal p) acked taken := by
  have hle : acked ≤ made.length := hc.acked_le.trans hc.taken_le
  have hprefix : made <+: made ++ [p] := List.prefix_append made [p]
  have hlast : (made ++ [p])[made.length]? = some p := by simp
  have hnumbered : numbered acked ((made ++ [p]).drop acked) =
      c.outstandingPuts ++ [(c.putCounter, p)] := by
    rw [List.drop_append_of_le_length hle, numbered_append, hc.outstanding, hc.putCounter,
      List.length_drop, Nat.add_sub_cancel' hle]
  unfold FPersistentConnection.putInternal
  dsimp only
  split
  · -- the put is sent
    rename_i hsend
    have hconnected : c.connectionState = .connected := by
      simpa [FPersistentConnection.canSendWrites] using hsend
    obtain ⟨w, down, up, hw, hcarried, hstate⟩ := hc.link.exists_of_connected
      (by simp [FPersistentConnection.connected, hconnected])
    rw [hconnected] at hstate
    obtain ⟨hdown, hup, hnot⟩ := hstate
    have hlookup : (c.outstandingPuts ++ [(c.putCounter, p)]).lookup c.putCounter = some p := by
      have hsub : acked + (made.length - acked) = made.length := Nat.add_sub_cancel' hle
      have hat := lookup_numbered acked (made.length - acked) ((made ++ [p]).drop acked)
      rw [hsub, List.getElem?_drop, hsub, hlast, hnumbered] at hat
      rwa [hc.putCounter] at hat ⊢
    obtain ⟨c', hc'⟩ : ∃ c' : FPersistentConnection P Q, { c with
        putCounter := c.putCounter + 1
        outstandingPuts := c.outstandingPuts ++ [(c.putCounter, p)] } = c' :=
      ⟨_, rfl⟩
    have hstate' : c'.connectionState = .connected := by
      rw [← hc']
      exact hconnected
    have hadded : Carried effect (made ++ [p]) c' w down up := by
      rw [← hc']
      exact (hcarried.mono hprefix).congr rfl rfl
    obtain ⟨w', hw', hcarried'⟩ := hadded.sendPut (by rw [← hc']; exact hw) c.putCounter
      (by rw [← hc']; exact hlookup) (by rw [hc.putCounter]; exact hlast)
    have hsame := same_sendPut c' c.putCounter
    rw [hc']
    refine ⟨?_, hc.acked_le, by simpa using Nat.le_succ_of_le hc.taken_le, ?_, ?_⟩
    · rw [hsame.putCounter, List.length_append, ← hc', ← hc.putCounter]
      rfl
    · rw [hsame.outstandingPuts, hnumbered, ← hc']
    · unfold Link
      rw [hw', hsame.connectionState, hstate']
      refine ⟨down, _, hcarried', hdown, ?_, fun hmem => ?_⟩
      · have hlen : (made ++ [p]).length - taken = made.length - taken + 1 := by
          rw [List.length_append, List.length_singleton, Nat.sub_add_comm hc.taken_le]
        have htaken : taken + 1 * (made.length - taken) = made.length := by
          rw [Nat.one_mul, Nat.add_sub_cancel' hc.taken_le]
        rw [List.filterMap_append, hup, hlen, List.range'_concat, htaken, hc.putCounter]
        rfl
      · rw [← List.append_assoc] at hmem
        rcases List.mem_append.mp hmem with hmem | hmem
        · exact hnot hmem
        · cases List.mem_singleton.mp hmem
  · -- the put waits for the connection
    rename_i hsend
    refine ⟨?_, hc.acked_le, by simpa using Nat.le_succ_of_le hc.taken_le, hnumbered.symm, ?_⟩
    · simp [hc.putCounter]
    · have hlink := hc.link
      unfold Link at hlink ⊢
      dsimp only
      cases hw : c.realtime with
      | none =>
        rw [hw] at hlink
        exact hlink
      | some w =>
        rw [hw] at hlink
        obtain ⟨down, up, hcarried, hstate⟩ := hlink
        refine ⟨down, up, (hcarried.mono hprefix).congr rfl rfl, ?_⟩
        have hnot : c.connectionState ≠ .connected := by
          simpa [FPersistentConnection.canSendWrites] using hsend
        cases hcs : c.connectionState <;> simp only [hcs] at hstate ⊢
        · exact hstate
        · exact hstate
        · exact hstate
        · exact hstate
        · exact absurd hcs hnot

/-! ### The connection is made and lost -/

lemma kept_init (made : List P) (h : made = []) :
    Kept effect made (init : FPersistentConnection P Q) 0 0 := by
  subst h
  exact ⟨rfl, le_rfl, le_rfl, rfl, rfl, fun _ => rfl, .inl rfl⟩

/-- **The connection is lost**: what is on the way counts for nothing. -/
lemma kept_onDisconnect (hcounter : c.putCounter = made.length) (hle : acked ≤ made.length)
    (houtstanding : c.outstandingPuts = numbered acked (made.drop acked)) :
    Kept effect made c.onDisconnect acked acked :=
  ⟨hcounter, le_rfl, hle, houtstanding, rfl, fun _ => rfl, .inl rfl⟩

lemma Kept.offline (hc : Kept effect made c acked taken)
    (h : c.connectionState = .disconnected ∨ c.connectionState = .gettingToken) :
    c.realtime = none ∧ taken = acked ∧ ∀ rn, c.requestCBHash rn = none := by
  have hlink := hc.link
  unfold Link at hlink
  split at hlink
  · exact ⟨‹_›, hlink.1, hlink.2.1⟩
  · obtain ⟨down, up, -, hstate⟩ := hlink
    rcases h with h | h <;> rw [h] at hstate <;> exact hstate.elim

lemma Kept.wait (hc : Kept effect made c acked taken)
    (h : c.connectionState = .disconnected ∨ c.connectionState = .gettingToken)
    {state : ConnectionState} (hstate : state = .disconnected ∨ state = .gettingToken) :
    Kept effect made { c with connectionState := state } acked taken := by
  obtain ⟨hw, htaken, hcb⟩ := hc.offline h
  refine ⟨hc.putCounter, hc.acked_le, hc.taken_le, hc.outstanding, ?_⟩
  unfold Link
  rw [hw]
  exact ⟨htaken, hcb, hstate⟩

lemma Kept.connect (hc : Kept effect made c acked taken)
    (h : c.connectionState = .disconnected ∨ c.connectionState = .gettingToken)
    (token : Option String) :
    Kept effect made { c with
      authToken := token, connectionState := .connecting, realtime := some ⟨[], []⟩ }
      acked taken := by
  obtain ⟨-, htaken, hcb⟩ := hc.offline h
  refine ⟨hc.putCounter, hc.acked_le, hc.taken_le, hc.outstanding, [], [], ?_, htaken, rfl, rfl⟩
  exact ⟨fun rn _ => hcb rn, by simp, by simp, by simp, by simp, rfl, rfl⟩

lemma filterMap_put (indices : List ℕ) :
    (indices.map (Callback.put : ℕ → Callback Q)).filterMap Callback.putIndex = indices := by
  rw [List.filterMap_map]
  exact List.filterMap_some

/-- **The puts are sent again**: all that are not answered are on the way. -/
lemma kept_restoreState (hcounter : c.putCounter = made.length) (hle : acked ≤ made.length)
    (houtstanding : c.outstandingPuts = numbered acked (made.drop acked))
    (hw : c.realtime = some w) (hcarried : Carried effect made c w down up)
    (hstate : c.connectionState = .connected)
    (hdown : down.filterMap Callback.putIndex = []) (hup : up.filterMap Callback.putIndex = [])
    (hnot : .auth true ∉ down ++ up) :
    Kept effect made c.restoreState acked acked := by
  have hsame := same_restoreState c
  obtain ⟨w', hw', hcarried'⟩ := Carried.restoreState houtstanding hw hcarried
  refine ⟨hsame.putCounter.trans hcounter, le_rfl, hle,
    hsame.outstandingPuts.trans houtstanding, ?_⟩
  unfold Link
  rw [hw', hsame.connectionState, hstate]
  refine ⟨down, _, hcarried', ?_, ?_, fun hmem => ?_⟩
  · rw [hdown, Nat.sub_self]
    rfl
  · rw [List.filterMap_append, hup, List.nil_append, filterMap_put]
  · rw [← List.append_assoc] at hmem
    rcases List.mem_append.mp hmem with hmem | hmem
    · exact hnot hmem
    · obtain ⟨index, -, hindex⟩ := List.mem_map.mp hmem
      cases hindex

/-- The connection is ready. -/
lemma Kept.restoreAuth (hc : Kept effect made c acked taken)
    (hstate : c.connectionState = .connecting) :
    Kept effect made c.restoreAuth acked taken := by
  have hlink := hc.link
  unfold Link at hlink
  cases hw : c.realtime with
  | none =>
    rw [hw] at hlink
    obtain ⟨-, -, h | h⟩ := hlink <;> rw [hstate] at h <;> cases h
  | some w =>
    rw [hw, hstate] at hlink
    obtain ⟨down, up, hcarried, rfl, rfl, rfl⟩ := hlink
    unfold FPersistentConnection.restoreAuth
    split
    · have hcarried' : Carried effect made { c with connectionState := .connected } w [] [] :=
        hcarried.congr rfl rfl
      exact kept_restoreState (c := { c with connectionState := .connected })
        hc.putCounter hc.taken_le hc.outstanding hw hcarried' rfl rfl rfl (by simp)
    · rename_i credential _
      have hcarried' : Carried effect made { c with connectionState := .authenticating } w [] [] :=
        hcarried.congr rfl rfl
      obtain ⟨w', hw', hsent⟩ := hcarried'.sendAction hw (.auth credential)
        (some (.auth true)) trivial
      refine ⟨hc.putCounter, hc.acked_le, hc.taken_le, hc.outstanding, ?_⟩
      unfold Link FPersistentConnection.sendAuth
      rw [hw']
      exact ⟨[], _, hsent, rfl, [], rfl, by simp⟩

/-! ### The server answers -/

/-- **A request is answered**: what waits for it waits behind the other answers, and no put or
credential was before it. -/
lemma Carried.answer (hcarried : Carried effect made c w down up) {pre post : List (ℕ × Action P Q)}
    {rn : ℕ} {action : Action P Q} (hrequests : w.requests = pre ++ (rn, action) :: post)
    (ok : Bool) (hok : ∀ index, c.requestCBHash rn = some (.put index) →
      ∃ p, made[index]? = some p ∧ ok = (effect p).isSome)
    (hpre : waiting c.requestCBHash (pre.map Prod.fst) = [] ∨
      waiting c.requestCBHash [rn] = []) :
    ∃ rest, up = waiting c.requestCBHash [rn] ++ rest ∧
      Carried effect made c ⟨pre ++ post, w.answers ++ [(rn, ok)]⟩
        (down ++ waiting c.requestCBHash [rn]) rest := by
  have hmap : w.requests.map Prod.fst = pre.map Prod.fst ++ rn :: post.map Prod.fst := by
    rw [hrequests, List.map_append, List.map_cons]
  have hperm : ((w.answers ++ [(rn, ok)]).map Prod.fst ++ (pre ++ post).map Prod.fst).Perm
      (w.answers.map Prod.fst ++ w.requests.map Prod.fst) := by
    rw [hmap, List.map_append, List.map_append, List.append_assoc, List.map_cons, List.map_nil,
      List.singleton_append]
    exact List.Perm.append_left _ List.perm_middle.symm
  refine ⟨waiting c.requestCBHash ((pre ++ post).map Prod.fst), ?_, ?_⟩
  · have hsingle : waiting c.requestCBHash (rn :: post.map Prod.fst) =
        waiting c.requestCBHash [rn] ++ waiting c.requestCBHash (post.map Prod.fst) :=
      waiting_append c.requestCBHash [rn] _
    rw [← hcarried.up_eq, hmap, waiting_append, hsingle, List.map_append, waiting_append]
    rcases hpre with h | h <;> rw [h] <;> simp
  · refine ⟨hcarried.unused, fun n hn => hcarried.fresh n (hperm.mem_iff.mp hn),
      hperm.nodup_iff.mpr hcarried.nodup, fun e he => hcarried.fits e ?_, fun e he index hi => ?_,
      ?_, rfl⟩
    · rw [hrequests]
      rcases List.mem_append.mp he with he | he <;> simp [he]
    · rcases List.mem_append.mp he with he | he
      · exact hcarried.truthful e he index hi
      · rw [List.mem_singleton.mp he] at hi ⊢
        exact hok index hi
    · rw [List.map_append, waiting_append, hcarried.down_eq]
      rfl

/-- A request is taken that nothing waits for. -/
lemma Carried.take (hcarried : Carried effect made c w down up) {pre post : List (ℕ × Action P Q)}
    {rn : ℕ} {action : Action P Q} (hrequests : w.requests = pre ++ (rn, action) :: post)
    (hnone : c.requestCBHash rn = none) :
    Carried effect made c ⟨pre ++ post, w.answers⟩ down up := by
  have hmap : w.requests.map Prod.fst = pre.map Prod.fst ++ rn :: post.map Prod.fst := by
    rw [hrequests, List.map_append, List.map_cons]
  have hsub : (w.answers.map Prod.fst ++ (pre ++ post).map Prod.fst).Sublist
      (w.answers.map Prod.fst ++ w.requests.map Prod.fst) := by
    rw [hmap, List.map_append]
    exact ((List.sublist_cons_self _ _).append_left _).append_left _
  refine ⟨hcarried.unused, fun n hn => hcarried.fresh n (hsub.subset hn),
    hcarried.nodup.sublist hsub, fun e he => hcarried.fits e ?_, hcarried.truthful,
    hcarried.down_eq, ?_⟩
  · rw [hrequests]
    rcases List.mem_append.mp he with he | he <;> simp [he]
  · rw [← hcarried.up_eq, hmap, List.map_append, waiting_append, waiting_append, waiting_cons,
      hnone]
    rfl

/-- Nothing waits in order for requests that need not be answered in order. -/
lemma waiting_eq_nil {pre : List (ℕ × Action P Q)}
    (hfits : ∀ e ∈ pre, Fits made (c.requestCBHash e.1) e.2)
    (hpre : ∀ e ∈ pre, e.2.inOrder = false) :
    waiting c.requestCBHash (pre.map Prod.fst) = [] := by
  refine List.filterMap_eq_nil_iff.mpr fun rn hrn => ?_
  obtain ⟨⟨n, action⟩, he, rfl⟩ := List.mem_map.mp hrn
  have hfit := hfits _ he
  have horder := hpre _ he
  dsimp only at hfit horder ⊢
  cases action with
  | auth credential => cases horder
  | put p => cases horder
  | _ => cases hcb : c.requestCBHash n with
    | none => rfl
    | some b =>
      rw [hcb] at hfit
      cases b with
      | listen => rfl
      | _ => cases hfit

/-! What waits for a request. -/

lemma fits_put {o : Option (Callback Q)} {p : P} (h : Fits made o (.put p)) :
    ∃ index, o = some (.put index) ∧ made[index]? = some p :=
  match o, h with
  | some (.put index), h => ⟨index, rfl, h⟩

lemma fits_auth {o : Option (Callback Q)} {credential : String}
    (h : Fits made o (.auth credential)) : ∃ restore, o = some (.auth restore) :=
  match o, h with
  | some (.auth restore), _ => ⟨restore, rfl⟩

lemma fits_listen {o : Option (Callback Q)} {query : Q} (h : Fits made o (.listen query)) :
    ∃ listenSpec, o = some (.listen listenSpec) :=
  match o, h with
  | some (.listen listenSpec), _ => ⟨listenSpec, rfl⟩

lemma fits_none {o : Option (Callback Q)} {action : Action P Q} (h : Fits made o action)
    (haction : action = .unauth ∨ ∃ query, action = .unlisten query) : o = none := by
  rcases haction with rfl | ⟨query, rfl⟩ <;>
  · match o, h with
    | none, _ => rfl

lemma waiting_single {rn : ℕ} {b : Callback Q} (h : cb rn = some b) :
    waiting cb [rn] = if b.inOrder then [b] else [] := by
  rw [waiting_cons, h, waiting_nil, List.append_nil]
  cases b <;> rfl

/-- **A put is taken**: it is the first that was not. -/
lemma InState.take {n index : ℕ} {rest : List (Callback Q)} {state : ConnectionState}
    (h : InState down (.put index :: rest) acked taken n state) (hle : acked ≤ taken) :
    index = taken ∧ taken < n ∧
      InState (down ++ [.put index]) rest acked (taken + 1) n state := by
  cases state with
  | connected =>
    obtain ⟨hdown, hup, hnot⟩ := h
    rw [List.filterMap_cons] at hup
    have hpos : 0 < n - taken := by
      by_contra hzero
      rw [Nat.eq_zero_of_not_pos hzero] at hup
      cases hup
    obtain ⟨k, hk⟩ := Nat.exists_eq_add_of_lt hpos
    rw [Nat.zero_add] at hk
    rw [hk, List.range'_succ] at hup
    obtain ⟨rfl, hrest⟩ := List.cons.inj hup
    refine ⟨rfl, by omega, ?_, ?_, ?_⟩
    · have hlen : index + 1 - acked = index - acked + 1 := by omega
      have hlast : acked + 1 * (index - acked) = index := by omega
      rw [List.filterMap_append, hdown, hlen, List.range'_concat, hlast]
      rfl
    · have hlen : n - (index + 1) = k := by omega
      rw [hrest, hlen]
    · simpa using hnot
  | authenticating =>
    obtain ⟨-, rest', hrest, hall⟩ := h
    have hmem : Callback.put index ∈ down ++ .put index :: rest := by simp
    rw [hrest] at hmem
    rcases List.mem_cons.mp hmem with hmem | hmem
    · cases hmem
    · cases hall _ hmem
  | connecting => cases h.2.2
  | disconnected => exact h.elim
  | gettingToken => exact h.elim

/-- What is answered waits behind the other answers. -/
lemma InState.move {n : ℕ} {b : Bool} {rest : List (Callback Q)} {state : ConnectionState}
    (h : InState down (.auth b :: rest) acked taken n state) :
    InState (down ++ [.auth b]) rest acked taken n state := by
  cases state with
  | connected =>
    obtain ⟨hdown, hup, hnot⟩ := h
    refine ⟨by rw [List.filterMap_append, hdown]; exact List.append_nil _, hup, ?_⟩
    rwa [List.append_assoc]
  | authenticating =>
    obtain ⟨htaken, rest', hrest, hall⟩ := h
    exact ⟨htaken, rest', by rw [List.append_assoc, ← hrest]; rfl, hall⟩
  | connecting => cases h.2.2
  | disconnected => exact h.elim
  | gettingToken => exact h.elim

/-! ### The client gets an answer -/

/-- **An answer that comes** is no more on the way, and what waited for it waits no more. -/
lemma Carried.receive {requests : List (ℕ × Action P Q)} {answers : List (ℕ × Bool)} {rn : ℕ}
    {ok : Bool} (hcarried : Carried effect made c ⟨requests, (rn, ok) :: answers⟩ down up) :
    ∃ rest, down = waiting c.requestCBHash [rn] ++ rest ∧
      ∀ c' : FPersistentConnection P Q, c'.requestNumber = c.requestNumber →
        c'.requestCBHash = Function.update c.requestCBHash rn none →
          Carried effect made c' ⟨requests, answers⟩ rest up := by
  have hnodup := hcarried.nodup
  rw [List.map_cons, List.cons_append, List.nodup_cons] at hnodup
  obtain ⟨hnot, hrest⟩ := hnodup
  obtain ⟨hanswers, hrequests⟩ := not_or.mp (mt List.mem_append.mpr hnot)
  have hne : ∀ {n : ℕ}, n ∈ answers.map Prod.fst ++ requests.map Prod.fst → n ≠ rn :=
    fun hn heq => hnot (heq ▸ hn)
  refine ⟨waiting c.requestCBHash (answers.map Prod.fst), ?_, fun c' hnumber hcb => ?_⟩
  · rw [← hcarried.down_eq]
    exact waiting_append c.requestCBHash [rn] _
  · refine ⟨fun n hn => ?_, fun n hn => ?_, hrest, fun e he => ?_, fun e he index hi => ?_, ?_, ?_⟩
    · rw [hcb, Function.update_apply]
      split
      · rfl
      · exact hcarried.unused n (hnumber ▸ hn)
    · rw [hnumber]
      exact hcarried.fresh n (List.mem_cons_of_mem _ hn)
    · rw [hcb, Function.update_of_ne (hne (List.mem_append_right _ (List.mem_map_of_mem he)))]
      exact hcarried.fits e he
    · rw [hcb, Function.update_of_ne
        (hne (List.mem_append_left _ (List.mem_map_of_mem he)))] at hi
      exact hcarried.truthful e (List.mem_cons_of_mem _ he) index hi
    · rw [hcb, waiting_update hanswers]
    · rw [hcb, waiting_update hrequests, hcarried.up_eq]

/-- **The first put is answered**: it is the first that was not. -/
lemma InState.ack {n index : ℕ} {rest : List (Callback Q)} {state : ConnectionState}
    (h : InState (.put index :: rest) up acked taken n state) :
    index = acked ∧ acked < taken ∧ InState rest up (acked + 1) taken n state := by
  cases state with
  | connected =>
    obtain ⟨hdown, hup, hnot⟩ := h
    rw [List.filterMap_cons] at hdown
    have hpos : 0 < taken - acked := by
      by_contra hzero
      rw [Nat.eq_zero_of_not_pos hzero] at hdown
      cases hdown
    obtain ⟨k, hk⟩ := Nat.exists_eq_add_of_lt hpos
    rw [Nat.zero_add] at hk
    rw [hk, List.range'_succ] at hdown
    obtain ⟨rfl, hrest⟩ := List.cons.inj hdown
    have hlen : taken - (index + 1) = k := by omega
    exact ⟨rfl, by omega, by rw [hrest, hlen], hup, fun hmem => hnot (List.mem_cons_of_mem _ hmem)⟩
  | authenticating =>
    obtain ⟨-, rest', hrest, hall⟩ := h
    cases hrest
  | connecting => cases h.2.1
  | disconnected => exact h.elim
  | gettingToken => exact h.elim

/-- What an answer does to the client, and which completion blocks are called. -/
inductive Received (effect : P → Option (List K × Leaves K V)) (made : List P)
    (c : FPersistentConnection P Q) (rn : ℕ) (ok : Bool) (acked taken : ℕ)
    (r : FPersistentConnection P Q × List (P × Bool)) : Prop
  | same (kept : Kept effect made r.1 acked taken) (completed : r.2 = [])
      (putsToAck : r.1.putsToAck = c.putsToAck)
      (unacked : c.unackedListensCount ≤ r.1.unackedListensCount)
  | lost (restore : Bool) (callback : c.requestCBHash rn = some (.auth restore)) (failed : ok =
    false)
      (kept : Kept effect made r.1 acked acked) (completed : r.2 = [])
      (putsToAck : r.1.putsToAck = c.putsToAck)
  | put (p : P) (get : made[acked]? = some p) (lt : acked < taken)
      (kept : Kept effect made r.1 (acked + 1) taken)
      (unacked : r.1.unackedListensCount = c.unackedListensCount)
      (completed : c.unackedListensCount = 0 ∧ r.2 = [(p, (effect p).isSome)] ∧
          r.1.putsToAck = c.putsToAck ∨
        c.unackedListensCount ≠ 0 ∧ r.2 = [] ∧
          r.1.putsToAck = c.putsToAck ++ [(p, (effect p).isSome)])
  | listen (kept : Kept effect made r.1 acked taken)
      (completed : r.1.unackedListensCount = 0 ∧ r.2 = c.putsToAck ∧ r.1.putsToAck = [] ∨
        r.1.unackedListensCount ≠ 0 ∧ r.2 = [] ∧ r.1.putsToAck = c.putsToAck)

/-- The answer to a credential is for the one the client connected with, or for a later one. -/
lemma InState.authenticated {n : ℕ} {b : Bool} {rest : List (Callback Q)}
    {state : ConnectionState} (h : InState (.auth b :: rest) up acked taken n state) :
    b = false ∧ state = .connected ∧ InState rest up acked taken n .connected ∨
      b = true ∧ taken = acked ∧ rest.filterMap Callback.putIndex = [] ∧
        up.filterMap Callback.putIndex = [] ∧ .auth true ∉ rest ++ up := by
  cases state with
  | connected =>
    obtain ⟨hdown, hup, hnot⟩ := h
    have hb : b = false := by
      cases b
      · rfl
      · exact absurd (by simp) hnot
    exact .inl ⟨hb, rfl, hdown, hup, fun hmem => hnot (List.mem_cons_of_mem _ hmem)⟩
  | authenticating =>
    obtain ⟨htaken, rest', hrest, hall⟩ := h
    obtain ⟨hb, rfl⟩ := List.cons.inj hrest
    cases hb
    have hputs : ∀ b ∈ rest ++ up, Callback.putIndex b = none := by
      intro b hb
      rw [hall b hb]
      rfl
    refine .inr ⟨rfl, htaken, ?_, ?_, fun hmem => ?_⟩
    · exact List.filterMap_eq_nil_iff.mpr fun b hb => hputs b (List.mem_append_left _ hb)
    · exact List.filterMap_eq_nil_iff.mpr fun b hb => hputs b (List.mem_append_right _ hb)
    · cases hall _ hmem
  | connecting => cases h.2.1
  | disconnected => exact h.elim
  | gettingToken => exact h.elim

/-- **An answer comes.** -/
lemma Kept.receive [DecidableEq Q] (hc : Kept effect made c acked taken)
    {requests : List (ℕ × Action P Q)} {answers : List (ℕ × Bool)} {rn : ℕ} {ok : Bool}
    (hw : c.realtime = some ⟨requests, (rn, ok) :: answers⟩) :
    Received effect made c rn ok acked taken
      (FPersistentConnection.onDataMessage
        { c with realtime := some ⟨requests, answers⟩ } rn ok) := by
  have hle : acked ≤ made.length := hc.acked_le.trans hc.taken_le
  have hlink := hc.link
  unfold Link at hlink
  rw [hw] at hlink
  obtain ⟨down, up, hcarried, hstate⟩ := hlink
  obtain ⟨rest, hdown, hreceived⟩ := hcarried.receive
  unfold FPersistentConnection.onDataMessage
  dsimp only
  cases hcb : c.requestCBHash rn with
  | none =>
    have hsame : c.requestCBHash = Function.update c.requestCBHash rn none :=
      (Function.update_eq_self_iff.mpr hcb.symm).symm
    have hnil : waiting c.requestCBHash [rn] = [] := by rw [waiting_cons, hcb]; rfl
    rw [hnil, List.nil_append] at hdown
    subst hdown
    exact .same ⟨hc.putCounter, hc.acked_le, hc.taken_le, hc.outstanding, _, _,
      hreceived _ rfl hsame, hstate⟩ rfl rfl le_rfl
  | some b =>
    have hsingle := waiting_single hcb
    cases b with
    | auth restore =>
      rw [hsingle] at hdown
      subst hdown
      unfold FPersistentConnection.onAuthResponse
      dsimp only
      rcases hstate.authenticated with ⟨rfl, hconnected, hin⟩ | ⟨rfl, rfl, hdown, hup, hnot⟩
      · split
        · refine .same ⟨hc.putCounter, hc.acked_le, hc.taken_le, hc.outstanding, _, _,
            hreceived _ rfl rfl, ?_⟩ rfl rfl le_rfl
          exact hin
        · exact .lost _ hcb (by simpa using ‹¬ ok = true›)
            (kept_onDisconnect hc.putCounter hle hc.outstanding) rfl rfl
      · split
        · have hkept := kept_restoreState (c := { c with
            connectionState := .connected
            realtime := some ⟨requests, answers⟩
            requestCBHash := Function.update c.requestCBHash rn none })
            hc.putCounter hle hc.outstanding rfl (hreceived _ rfl rfl) rfl hdown hup hnot
          have hsame := same_restoreState { c with
            connectionState := .connected
            realtime := some ⟨requests, answers⟩
            requestCBHash := Function.update c.requestCBHash rn none }
          exact .same hkept rfl hsame.putsToAck hsame.unacked
        · exact .lost _ hcb (by simpa using ‹¬ ok = true›)
            (kept_onDisconnect hc.putCounter hle hc.outstanding) rfl rfl
    | put index =>
      rw [hsingle] at hdown
      subst hdown
      obtain ⟨rfl, hlt, hin⟩ := hstate.ack
      obtain ⟨p, hget, rfl⟩ := hcarried.truthful (rn, ok) (by simp) index hcb
      have hlookup := (lookup_outstanding hc.outstanding (le_refl index)).trans hget
      have hlast : made.drop index = p :: made.drop (index + 1) := by
        obtain ⟨hindex, rfl⟩ := List.getElem?_eq_some_iff.mp hget
        exact List.drop_eq_getElem_cons hindex
      have houtstanding : (c.outstandingPuts.filter fun e => e.1 ≠ index) =
          numbered (index + 1) (made.drop (index + 1)) := by
        rw [hc.outstanding, hlast, filter_numbered]
      have hkept : ∀ acks : List (P × Bool), Kept effect made { c with
          realtime := some ⟨requests, answers⟩
          requestCBHash := Function.update c.requestCBHash rn none
          outstandingPuts := c.outstandingPuts.filter fun e => e.1 ≠ index
          putsToAck := acks } (index + 1) taken :=
        fun acks => ⟨hc.putCounter, hlt, hc.taken_le, houtstanding, _, _, hreceived _ rfl rfl, hin⟩
      unfold FPersistentConnection.onPutResponse
      dsimp only
      rw [hlookup]
      dsimp only
      split
      · rename_i hzero
        exact .put p hget hlt (hkept _) rfl (.inl ⟨hzero, rfl, rfl⟩)
      · rename_i hzero
        exact .put p hget hlt (hkept _) rfl (.inr ⟨hzero, rfl, rfl⟩)
    | listen listenSpec =>
      have hnil : waiting c.requestCBHash [rn] = [] := hsingle
      rw [hnil, List.nil_append] at hdown
      subst hdown
      have hkept : ∀ (ls : List (FOutstandingQuery Q)) (count : ℕ) (acks : List (P × Bool)),
          Kept effect made { c with
            realtime := some ⟨requests, answers⟩
            requestCBHash := Function.update c.requestCBHash rn none
            listens := ls, unackedListensCount := count, putsToAck := acks } acked taken :=
        fun ls count acks => ⟨hc.putCounter, hc.acked_le, hc.taken_le, hc.outstanding, _, _,
          hreceived _ rfl rfl, hstate⟩
      unfold FPersistentConnection.onListenResponse FPersistentConnection.ackPuts
        FPersistentConnection.removeListen
      dsimp only
      split_ifs with hremove hzero hzero
      · exact .listen (hkept _ _ _) (.inl ⟨hzero, rfl, rfl⟩)
      · exact .listen (hkept _ _ _) (.inr ⟨hzero, rfl, rfl⟩)
      · exact .listen (hkept _ _ _) (.inl ⟨hzero, rfl, rfl⟩)
      · exact .listen (hkept _ _ _) (.inr ⟨hzero, rfl, rfl⟩)

end FPersistentConnection

namespace Exchange

open FPersistentConnection

variable [DecidableEq K] {effect : P → Option (List K × Leaves K V)} {s s' : Exchange P Q K V}
  {w : FConnection P Q} {acked taken : ℕ}

/-- What the server's answer leaves as it is. -/
structure Answered (effect : P → Option (List K × Leaves K V)) (s s' : Exchange P Q K V)
    (acked taken taken' : ℕ) : Prop where
  kept : Kept effect s'.made s'.connection acked taken'
  made : s'.made = s.made
  completed : s'.completed = s.completed
  putsToAck : s'.connection.putsToAck = s.connection.putsToAck
  unackedListensCount : s'.connection.unackedListensCount = s.connection.unackedListensCount
  data : taken' = taken ∧ s'.data = s.data ∨
    taken' = taken + 1 ∧ ∃ p, s.made[taken]? = some p ∧ s'.data = apply effect s.data [p]

/-- **The server answers**: it takes at most the next put. -/
lemma answered (hs : Kept effect s.made s.connection acked taken)
    (hw : s.connection.realtime = some w) {position : ℕ} {ok : Bool}
    (h : answer effect s w position ok = some s') :
    ∃ taken', Answered effect s s' acked taken taken' := by
  have hlink := hs.link
  unfold Link at hlink
  rw [hw] at hlink
  obtain ⟨down, up, hcarried, hstate⟩ := hlink
  unfold answer at h
  split at h
  · cases h
  · rename_i rn action hget
    obtain ⟨hlt, hat⟩ := List.getElem?_eq_some_iff.mp hget
    have hrequests : w.requests =
        w.requests.take position ++ (rn, action) :: w.requests.drop (position + 1) := by
      rw [← hat, ← List.drop_eq_getElem_cons hlt, List.take_append_drop]
    have herase : w.requests.eraseIdx position =
        w.requests.take position ++ w.requests.drop (position + 1) :=
      List.eraseIdx_eq_take_drop_succ ..
    rw [herase] at h
    have hfit : Fits s.made (s.connection.requestCBHash rn) action :=
      hcarried.fits (rn, action) (List.mem_of_getElem? hget)
    split at h
    · cases h
    · rename_i horder
      have hpre : action.inOrder = true →
          waiting s.connection.requestCBHash ((w.requests.take position).map Prod.fst) = [] := by
        intro haction
        refine waiting_eq_nil
          (fun e he => hcarried.fits e (List.mem_of_mem_take he)) fun e he => ?_
        rw [haction, Bool.true_and, List.any_eq_true] at horder
        by_contra hne
        exact horder ⟨e, he, by simpa using hne⟩
      have hlink' : ∀ {rest down' : List (Callback Q)} {w' : FConnection P Q} {t : ℕ},
          Carried effect s.made s.connection w' down' rest →
          InState down' rest acked t s.made.length s.connection.connectionState →
          acked ≤ t → t ≤ s.made.length →
          Kept effect s.made { s.connection with realtime := some w' } acked t :=
        fun hc hin hle hlt => ⟨hs.putCounter, hle, hlt, hs.outstanding, _, _,
          hc.congr rfl rfl, hin⟩
      cases action with
      | put p =>
        obtain ⟨index, hcb, hindex⟩ := fits_put hfit
        obtain ⟨rest, hup, hcarried'⟩ := hcarried.answer hrequests
          (effect p).isSome (fun i hi => by
            obtain rfl : index = i := by simpa [hcb] using hi
            exact ⟨p, hindex, rfl⟩) (.inl (hpre rfl))
        rw [waiting_single hcb] at hup hcarried'
        subst hup
        obtain ⟨rfl, hlt', hin⟩ := hstate.take hs.acked_le
        cases h
        exact ⟨index + 1, hlink' hcarried' hin (Nat.le_succ_of_le hs.acked_le) hlt', rfl, rfl, rfl,
          rfl, .inr ⟨rfl, p, hindex, rfl⟩⟩
      | auth credential =>
        obtain ⟨restore, hcb⟩ := fits_auth hfit
        obtain ⟨rest, hup, hcarried'⟩ := hcarried.answer hrequests ok
          (fun i hi => by simp [hcb] at hi) (.inl (hpre rfl))
        rw [waiting_single hcb] at hup hcarried'
        subst hup
        cases h
        exact ⟨taken, hlink' hcarried' hstate.move hs.acked_le hs.taken_le, rfl, rfl, rfl, rfl,
          .inl ⟨rfl, rfl⟩⟩
      | listen query =>
        obtain ⟨listenSpec, hcb⟩ := fits_listen hfit
        have hnone : waiting s.connection.requestCBHash [rn] = [] := waiting_single hcb
        obtain ⟨rest, hup, hcarried'⟩ := hcarried.answer hrequests ok
          (fun i hi => by simp [hcb] at hi) (.inr hnone)
        rw [hnone, List.append_nil] at hcarried'
        rw [hnone, List.nil_append] at hup
        subst hup
        cases h
        exact ⟨taken, hlink' hcarried' hstate hs.acked_le hs.taken_le, rfl, rfl, rfl, rfl,
          .inl ⟨rfl, rfl⟩⟩
      | unauth =>
        have hcb := fits_none hfit (.inl rfl)
        cases h
        exact ⟨taken, hlink' (hcarried.take hrequests hcb) hstate hs.acked_le hs.taken_le, rfl,
          rfl, rfl, rfl, .inl ⟨rfl, rfl⟩⟩
      | unlisten query =>
        have hcb := fits_none hfit (.inr ⟨query, rfl⟩)
        cases h
        exact ⟨taken, hlink' (hcarried.take hrequests hcb) hstate hs.acked_le hs.taken_le, rfl,
          rfl, rfl, rfl, .inl ⟨rfl, rfl⟩⟩

end Exchange

end Solta
