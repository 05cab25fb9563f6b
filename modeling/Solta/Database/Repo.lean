import Solta.Database.WriteTree
import Solta.Database.Arrival

/-!
What the app is shown of its own writes.

A write of the app is pending from when it is made until its completion block is called, and it
is put to the server at the same time. Whatever is lost on the way and sent again, the app that
has the server's data as it is sees the data with the writes it heard of, where the rules let
them, and with all later ones, each once and in order.
-/

namespace Solta

open Lib Overwrite Run FCompoundWrite FWriteTree FPersistentConnection Exchange

/-- What `set` puts to the server, and the id its completion block acknowledges. -/
structure FPut (K V : Type) where
  path : List K
  value : FNode K V
  writeId : ℤ

structure FRepo (Q K V : Type) where
  net : Exchange (FPut K V) Q K V
  pendingWriteTree : FWriteTree K V
  writeIdCounter : ℤ

namespace FRepo

variable {Q K V : Type} [DecidableEq Q] [DecidableEq K] (cmp scmp : K → K → Ordering)
  (rules : FPut K V → Bool)

def written (put : FPut K V) : List K × Leaves K V := (put.path, put.value.valueAt cmp)

/-- What the rules let a put write. -/
def effect (put : FPut K V) : Option (List K × Leaves K V) :=
  if rules put then some (written cmp put) else none

def init (data : Leaves K V) : FRepo Q K V := ⟨.init data, .init, 0⟩

inductive Event (Q K V : Type)
  | set (path : List K) (node : FNode K V)
  | connection (e : Exchange.Event (FPut K V) Q)

def ackWrite (t : FWriteTree K V) (completed : FPut K V × Bool) : Option (FWriteTree K V) :=
  (removeWriteId cmp scmp t completed.1.writeId).map Prod.snd

/-- The completion blocks that are called remove their writes. -/
def ackWrites (t : FWriteTree K V) (completed : List (FPut K V × Bool)) :
    Option (FWriteTree K V) :=
  completed.foldlM (ackWrite cmp scmp) t

def step (r : FRepo Q K V) : Event Q K V → Option (FRepo Q K V)
  | .set path node =>
    let writeId := r.writeIdCounter
    (addOverwriteAtPath cmp scmp r.pendingWriteTree path node writeId true).bind fun t =>
      (Exchange.step (effect cmp rules) r.net (.putData ⟨path, node, writeId⟩)).map fun net =>
        ⟨net, t, writeId + 1⟩
  | .connection (.putData _) => none
  | .connection e =>
    (Exchange.step (effect cmp rules) r.net e).bind fun net =>
      (ackWrites cmp scmp r.pendingWriteTree
        (net.completed.drop r.net.completed.length)).map fun t =>
          { r with net := net, pendingWriteTree := t }

/-- A written node is not empty, and the connection is not lost while answers are held back. -/
def Orderly (r : FRepo Q K V) : Event Q K V → Prop
  | .set _ node => Written cmp node
  | .connection e => NoneHeld r.net e

/-- The pending write of a put. -/
def record (put : FPut K V) : FWriteRecord K V := ⟨put.writeId, put.path, put.value, true⟩

/-- **The invariant**: the writes that are pending are those the app has not heard of. -/
structure Consistent (data₀ : Leaves K V) (r : FRepo Q K V) : Prop where
  layered : Layered cmp scmp r.pendingWriteTree
  net : ∃ base acked taken top, InOrder (effect cmp rules) data₀ r.net base acked taken top
  allWrites : r.pendingWriteTree.allWrites = (r.net.made.drop r.net.completed.length).map record

variable {cmp scmp rules} {t : FWriteTree K V} {r r' : FRepo Q K V} {data₀ : Leaves K V}

lemma step_connection {e : Exchange.Event (FPut K V) Q} (he : ∀ p, e ≠ .putData p) :
    step cmp scmp rules r (.connection e) =
      (Exchange.step (effect cmp rules) r.net e).bind fun net =>
        (ackWrites cmp scmp r.pendingWriteTree
          (net.completed.drop r.net.completed.length)).map fun t =>
            { r with net := net, pendingWriteTree := t } := by
  cases e with
  | putData put => exact absurd rfl (he put)
  | _ => rfl

lemma step_set (path : List K) (node : FNode K V) : step cmp scmp rules r (.set path node) =
    (addOverwriteAtPath cmp scmp r.pendingWriteTree path node r.writeIdCounter true).bind fun t =>
      (Exchange.step (effect cmp rules) r.net (.putData ⟨path, node, r.writeIdCounter⟩)).map
        fun net => ⟨net, t, r.writeIdCounter + 1⟩ := rfl

/-- Whatever becomes of the compound write, the first pending write is removed. -/
lemma removeWriteId_first {w : FWriteRecord K V} {rest : List (FWriteRecord K V)}
    (h : t.allWrites = w :: rest) :
    ∃ t', (removeWriteId cmp scmp t w.writeId).map Prod.snd = some t' ∧ t'.allWrites = rest := by
  obtain ⟨res, hres⟩ := exists_removeWriteId cmp scmp (h ▸ List.mem_cons_self :
    w ∈ t.allWrites)
  obtain ⟨pre, w', post, hall, hid, hpre, hrest, -⟩ := removeWriteId_cases hres
  refine ⟨res.2, by rw [hres, Option.map_some], ?_⟩
  cases pre with
  | nil =>
    rw [h] at hall
    rw [hrest]
    exact (List.cons.inj hall).2.symm
  | cons r pre =>
    rw [h] at hall
    obtain ⟨rfl, -⟩ := List.cons.inj hall
    exact absurd rfl (hpre _ List.mem_cons_self)

omit [DecidableEq Q] in
lemma consistent_init (data : Leaves K V) :
    Consistent cmp scmp rules data (init data : FRepo Q K V) :=
  ⟨layered_init, ⟨0, 0, 0, 0, inOrder_init _ data⟩, rfl⟩

omit [DecidableEq K] in
/-- What the rules let through is some of what is put. -/
lemma sublist_written (ps : List (FPut K V)) :
    (ps.filterMap (effect cmp rules)).Sublist (ps.map (written cmp)) := by
  induction ps with
  | nil => exact List.Sublist.refl _
  | cons p ps ih =>
    rw [List.filterMap_cons, List.map_cons, effect]
    cases rules p
    · exact ih.cons _
    · exact ih.cons_cons _

omit [DecidableEq Q] in
/-- What the pending writes make of the server's data. -/
lemma Consistent.puts_pending (hr : Consistent cmp scmp rules data₀ r) :
    puts r.net.data (pending cmp r.pendingWriteTree) =
      puts (apply (effect cmp rules) data₀ (r.net.made.take r.net.completed.length))
        ((r.net.made.drop r.net.completed.length).map (written cmp)) := by
  obtain ⟨base, acked, taken, top, hs⟩ := hr.net
  set n := r.net.completed.length
  have hpending : pending cmp r.pendingWriteTree = (r.net.made.drop n).map (written cmp) := by
    rw [pending, hr.allWrites, List.map_map]
    rfl
  have hsublist : ((r.net.made.drop n).filterMap (effect cmp rules)).Sublist
      ((r.net.made.drop n).map (written cmp)) := sublist_written _
  have hrest := hs.served.rest hs.base_le (hs.completed_le.trans hs.kept.acked_le)
  rw [hpending]
  calc puts r.net.data ((r.net.made.drop n).map (written cmp))
      = puts (apply (effect cmp rules) r.net.data (r.net.made.drop n))
          ((r.net.made.drop n).map (written cmp)) := (puts_sublist _ hsublist).symm
    _ = puts (apply (effect cmp rules) (apply (effect cmp rules) data₀ (r.net.made.take n))
          (r.net.made.drop n)) ((r.net.made.drop n).map (written cmp)) := by
        rw [hrest, ← apply_append, List.take_append_drop]
    _ = _ := puts_sublist _ hsublist

/-! ### No assertion fails -/

/-- The puts that no completion block was called for. -/
def unheard (made : List (FPut K V)) (completed : List (FPut K V × Bool)) : List (FPut K V) :=
  made.filter fun put => put.writeId ∉ completed.map fun c => c.1.writeId

variable (cmp rules) in
/-- **The invariant of every run**: ids go up, and the writes that are pending are those that the
app has not heard of. -/
structure Pending (r : FRepo Q K V) : Prop where
  heard : Heard (effect cmp rules) r.net
  fresh : Fresh r.pendingWriteTree r.writeIdCounter
  inOrder : r.net.made.Pairwise fun p q => p.writeId < q.writeId
  below : ∀ put ∈ r.net.made, put.writeId < r.writeIdCounter
  allWrites : r.pendingWriteTree.allWrites = (unheard r.net.made r.net.completed).map record

omit [DecidableEq Q] [DecidableEq K] in
/-- The app hears of puts that it made. -/
lemma made_of_heard {net : Exchange (FPut K V) Q K V} (h : Heard (effect cmp rules) net)
    {c : FPut K V × Bool} (hc : c ∈ net.completed) : c.1 ∈ net.made := by
  obtain ⟨acked, taken, -, hperm⟩ := h
  have hmem := hperm.mem_iff.mp (List.mem_append_left _ hc)
  obtain ⟨put, hput, rfl⟩ := List.mem_map.mp hmem
  exact List.mem_of_mem_take hput

omit [DecidableEq Q] [DecidableEq K] in
/-- It hears of none of them twice. -/
lemma nodup_of_heard {net : Exchange (FPut K V) Q K V} (h : Heard (effect cmp rules) net)
    (hinOrder : net.made.Pairwise fun p q => p.writeId < q.writeId) :
    (net.completed.map fun c => c.1.writeId).Nodup := by
  obtain ⟨acked, taken, -, hperm⟩ := h
  have hids : ((net.made.take acked).map (verdict (effect cmp rules))).map
      (fun c => c.1.writeId) = (net.made.take acked).map FPut.writeId := by
    rw [List.map_map]
    rfl
  have hnodup : ((net.made.take acked).map FPut.writeId).Nodup :=
    List.pairwise_map.mpr ((hinOrder.sublist (List.take_sublist ..)).imp fun hlt => hlt.ne)
  rw [← hids] at hnodup
  have hall := (hperm.map fun c => c.1.writeId).nodup_iff.mpr hnodup
  rw [List.map_append] at hall
  exact hall.of_append_left

omit [DecidableEq K] in
/-- The records but one. -/
lemma append_eq_filter {pre post : List (FWriteRecord K V)} {w : FWriteRecord K V}
    (h : (pre ++ w :: post).Pairwise fun r s => r.writeId < s.writeId) :
    pre ++ post = (pre ++ w :: post).filter fun r => r.writeId ≠ w.writeId := by
  obtain ⟨-, hpost, hpre⟩ := List.pairwise_append.mp h
  have hpre' : pre.filter (fun r => r.writeId ≠ w.writeId) = pre :=
    List.filter_eq_self.mpr fun r hr => decide_eq_true (hpre r hr w List.mem_cons_self).ne
  have hpost' : post.filter (fun r => r.writeId ≠ w.writeId) = post :=
    List.filter_eq_self.mpr fun r hr =>
      decide_eq_true ((List.pairwise_cons.mp hpost).1 r hr).ne'
  rw [List.filter_append, List.filter_cons, hpre', hpost', if_neg (by simp)]

omit [DecidableEq K] in
lemma unheard_append (made : List (FPut K V)) (completed : List (FPut K V × Bool))
    (c : FPut K V × Bool) : unheard made (completed ++ [c]) =
      (unheard made completed).filter fun put => put.writeId ≠ c.1.writeId := by
  rw [unheard, unheard, List.filter_filter]
  refine List.filter_congr fun put _ => ?_
  rw [← Bool.decide_and, decide_eq_decide, List.map_append, List.map_singleton, List.mem_append,
    List.mem_singleton, not_or, and_comm]

variable (cmp scmp) in
/-- **The writes heard of** are removed, in whatever order. -/
lemma exists_ackWrites {made : List (FPut K V)} {completed new : List (FPut K V × Bool)} {bound : ℤ}
    (ht : Fresh t bound) (hinOrder : made.Pairwise fun p q => p.writeId < q.writeId)
    (hall : t.allWrites = (unheard made completed).map record) (hnew : ∀ c ∈ new, c.1 ∈ made)
    (hnodup : ((completed ++ new).map fun c => c.1.writeId).Nodup) :
    ∃ t', ackWrites cmp scmp t new = some t' ∧ Fresh t' bound ∧
      t'.allWrites = (unheard made (completed ++ new)).map record := by
  induction new generalizing t completed with
  | nil => exact ⟨t, rfl, ht, by rw [List.append_nil]; exact hall⟩
  | cons c new ih =>
    have hnot : c.1.writeId ∉ completed.map fun c => c.1.writeId := by
      rw [List.map_append, List.nodup_append] at hnodup
      exact fun hmem => hnodup.2.2 _ hmem _ (by simp) rfl
    have hmem : record c.1 ∈ t.allWrites := by
      rw [hall]
      exact List.mem_map_of_mem (List.mem_filter.mpr ⟨hnew c (by simp), decide_eq_true hnot⟩)
    obtain ⟨res, hres⟩ := exists_removeWriteId cmp scmp hmem
    obtain ⟨pre, w, post, hsplit, hid, -, hrest, -⟩ := removeWriteId_cases hres
    have hrecords : t.allWrites.Pairwise fun r s => r.writeId < s.writeId := by
      rw [hall]
      exact List.pairwise_map.mpr (hinOrder.sublist List.filter_sublist)
    have hleft : res.2.allWrites = (unheard made (completed ++ [c])).map record := by
      rw [hsplit] at hrecords
      rw [hrest, append_eq_filter hrecords, ← hsplit, hall, List.filter_map, unheard_append, hid]
      rfl
    obtain ⟨t', hack, hfresh, hall'⟩ := ih (ht.removeWriteId hres) hleft
      (fun d hd => hnew d (by simp [hd])) (by rwa [List.append_assoc])
    refine ⟨t', ?_, hfresh, by rwa [List.append_assoc] at hall'⟩
    have hfirst : ackWrite cmp scmp t c = some res.2 := by
      rw [ackWrite]
      have hres' : removeWriteId cmp scmp t c.1.writeId = some res := hres
      rw [hres', Option.map_some]
    rw [ackWrites, List.foldlM_cons, hfirst]
    exact hack

omit [DecidableEq Q] [DecidableEq K] in
lemma pending_init (data : Leaves K V) : Pending cmp rules (init data : FRepo Q K V) where
  heard := ⟨0, 0, kept_init [] rfl, List.Perm.refl _⟩
  fresh := fresh_init
  inOrder := List.Pairwise.nil
  below _ hput := absurd hput List.not_mem_nil
  allWrites := rfl

variable (scmp) in
/-- **A set** is on top of the older writes. -/
lemma Pending.set (hr : Pending cmp rules r) (path : List K) (node : FNode K V) :
    ∃ r', step cmp scmp rules r (.set path node) = some r' ∧ Pending cmp rules r' := by
  set put : FPut K V := ⟨path, node, r.writeIdCounter⟩ with hput
  have hstep : step cmp scmp rules r (.set path node) = some
      ⟨{ r.net with connection := r.net.connection.putInternal put, made := r.net.made ++ [put] },
        r.pendingWriteTree.stack cmp scmp (record put), r.writeIdCounter + 1⟩ := by
    rw [step_set, hr.fresh.addOverwriteAtPath cmp scmp]
    rfl
  refine ⟨_, hstep, hr.heard.step (e := .putData put) rfl, ?_, ?_, ?_, ?_⟩
  · have hfresh : Fresh r.pendingWriteTree (record put).writeId := hr.fresh
    exact hfresh.stack
  · refine List.pairwise_append.mpr ⟨hr.inOrder, List.pairwise_singleton _ _, ?_⟩
    intro p hp q hq
    rw [List.mem_singleton.mp hq]
    exact hr.below p hp
  · intro p hp
    rcases List.mem_append.mp hp with hp | hp
    · exact (hr.below p hp).trans (Int.lt_succ _)
    · rw [List.mem_singleton.mp hp]
      exact Int.lt_succ _
  · have hnot : put.writeId ∉ r.net.completed.map fun c => c.1.writeId := by
      intro hmem
      obtain ⟨c, hc, hid⟩ := List.mem_map.mp hmem
      have hlt := hr.below c.1 (made_of_heard hr.heard hc)
      rw [hid] at hlt
      exact lt_irrefl _ hlt
    have hunheard : unheard (r.net.made ++ [put]) r.net.completed =
        unheard r.net.made r.net.completed ++ [put] := by
      rw [unheard, List.filter_append, List.filter_singleton, decide_eq_true hnot]
      rfl
    dsimp only
    rw [hunheard, List.map_append, ← hr.allWrites]
    rfl

variable (scmp) in
/-- **The blocks that are called** find their writes pending. -/
lemma Pending.connection (hr : Pending cmp rules r) {e : Exchange.Event (FPut K V) Q}
    (hput : ∀ p, e ≠ .putData p) {net : Exchange (FPut K V) Q K V}
    (h : Exchange.step (effect cmp rules) r.net e = some net) :
    ∃ r', step cmp scmp rules r (.connection e) = some r' ∧ r'.net = net ∧
      Pending cmp rules r' := by
  have hheard := hr.heard.step h
  have hmade := step_made hput h
  obtain ⟨acked, taken, hkept, -⟩ := hr.heard
  obtain ⟨_, _, -, -, hhears, -⟩ := stepped hkept h
  obtain ⟨new, hnew⟩ := hhears.completed_prefix
  have hinOrder : net.made.Pairwise fun p q => p.writeId < q.writeId := by
    rw [hmade]
    exact hr.inOrder
  have hdrop : net.completed.drop r.net.completed.length = new := by rw [← hnew, List.drop_left]
  have hmadeNew : ∀ c ∈ new, c.1 ∈ r.net.made := by
    intro c hc
    rw [← hmade]
    exact made_of_heard hheard (hnew ▸ List.mem_append_right _ hc)
  have hnodup := nodup_of_heard hheard hinOrder
  rw [← hnew] at hnodup
  obtain ⟨t', hack, hfresh, hall⟩ := exists_ackWrites cmp scmp hr.fresh hr.inOrder hr.allWrites
    hmadeNew hnodup
  refine ⟨⟨net, t', r.writeIdCounter⟩, ?_, rfl, hheard, hfresh, hinOrder, ?_, ?_⟩
  · rw [step_connection hput, h, Option.bind_some, hdrop, hack]
    rfl
  · dsimp only
    rw [hmade]
    exact hr.below
  · dsimp only
    rw [hall, hmade, hnew]

lemma Pending.step (hr : Pending cmp rules r) {e : Event Q K V}
    (h : step cmp scmp rules r e = some r') : Pending cmp rules r' := by
  cases e with
  | set path node =>
    obtain ⟨r'', hstep, hr''⟩ := hr.set scmp path node
    rw [hstep] at h
    cases h
    exact hr''
  | connection e =>
    by_cases hput : ∃ p, e = .putData p
    · obtain ⟨p, rfl⟩ := hput
      cases h
    · replace hput : ∀ p, e ≠ .putData p := fun p hp => hput ⟨p, hp⟩
      obtain ⟨net, hnet, -⟩ := Option.bind_eq_some_iff.mp (step_connection hput ▸ h)
      obtain ⟨r'', hstep, -, hr''⟩ := hr.connection scmp hput hnet
      rw [hstep] at h
      cases h
      exact hr''

/-- **No assertion fails**: in every run, whatever is set and whatever is lost or held back, a
write can be made, and whatever the connection does next, the writes it completes are pending. -/
theorem completions_find_writes {es : List (Event Q K V)}
    (h : run (step cmp scmp rules) (init data₀) es = some r) :
    (∀ path node, ∃ r', step cmp scmp rules r (.set path node) = some r') ∧
      ∀ e net, (∀ p, e ≠ .putData p) → Exchange.step (effect cmp rules) r.net e = some net →
        ∃ r', step cmp scmp rules r (.connection e) = some r' ∧ r'.net = net := by
  have hr : Pending cmp rules r :=
    run_inv (fun _ _ _ hr hstep => hr.step hstep) (pending_init data₀) h
  refine ⟨fun path node => ?_, fun e net hput hnet => ?_⟩
  · obtain ⟨r', hstep, -⟩ := hr.set scmp path node
    exact ⟨r', hstep⟩
  · obtain ⟨r', hstep, heq, -⟩ := hr.connection scmp hput hnet
    exact ⟨r', hstep, heq⟩

/-! ### What is shown -/

variable [Std.TransCmp cmp] [Std.LawfulEqCmp cmp] [Std.TransCmp scmp] [Std.LawfulEqCmp scmp]

/-- **The writes heard of** are removed when they are the first. -/
lemma ackWrites_first {ps rest : List (FPut K V)} (ht : Layered cmp scmp t)
    (h : t.allWrites = (ps ++ rest).map record) :
    ∃ t', ackWrites cmp scmp t (ps.map (verdict (effect cmp rules))) = some t' ∧
      Layered cmp scmp t' ∧ t'.allWrites = rest.map record := by
  induction ps generalizing t with
  | nil => exact ⟨t, rfl, ht, h⟩
  | cons p ps ih =>
    obtain ⟨t₁, hstep, hall⟩ : ∃ t₁, FWriteTree.step cmp scmp t (.ack p.writeId) = some t₁ ∧
      t₁.allWrites = (ps ++ rest).map record := removeWriteId_first h
    have horderly : FWriteTree.Orderly cmp t (.ack p.writeId) := by
      intro pre w post hsplit hpre _
      cases pre with
      | nil => simp
      | cons r pre =>
        rw [h] at hsplit
        obtain ⟨rfl, -⟩ := List.cons.inj hsplit
        exact absurd rfl (hpre _ List.mem_cons_self)
    obtain ⟨t', hack, hrest⟩ := ih (layered_step ht horderly hstep) hall
    refine ⟨t', ?_, hrest⟩
    rw [ackWrites, List.map_cons, List.foldlM_cons]
    have hfirst : ackWrite cmp scmp t (verdict (effect cmp rules) p) = some t₁ := hstep
    rw [hfirst]
    exact hack

/-- A write is pending once it is put. -/
lemma Consistent.set (hr : Consistent cmp scmp rules data₀ r) {path : List K} {node : FNode K V}
    (hnode : Written cmp node) (h : step cmp scmp rules r (.set path node) = some r') :
    Consistent cmp scmp rules data₀ r' := by
  obtain ⟨base, acked, taken, top, hs⟩ := hr.net
  rw [step_set] at h
  obtain ⟨t, ht, h⟩ := Option.bind_eq_some_iff.mp h
  cases h
  have hheld : NoneHeld r.net (.putData ⟨path, node, r.writeIdCounter⟩) := fun h => h.elim
  refine ⟨layered_add hr.layered hnode ht, hs.step hheld rfl, ?_⟩
  have hle : r.net.completed.length ≤ r.net.made.length :=
    hs.completed_le.trans (hs.kept.acked_le.trans hs.kept.taken_le)
  rw [addOverwriteAtPath] at ht
  split at ht
  · cases ht
    rw [stack, hr.allWrites]
    dsimp only
    rw [List.drop_append_of_le_length hle, List.map_append]
    rfl
  · cases ht

/-- **The blocks that are called** find their writes pending, and first. -/
lemma Consistent.connection (hr : Consistent cmp scmp rules data₀ r)
    {e : Exchange.Event (FPut K V) Q} (he : NoneHeld r.net e) (hput : ∀ p, e ≠ .putData p)
    {net : Exchange (FPut K V) Q K V} (h : Exchange.step (effect cmp rules) r.net e = some net) :
    ∃ r', step cmp scmp rules r (.connection e) = some r' ∧ r'.net = net ∧
      Consistent cmp scmp rules data₀ r' := by
  obtain ⟨base, acked, taken, top, hs⟩ := hr.net
  obtain ⟨base', acked', taken', top', hs'⟩ := hs.step he h
  obtain ⟨_, _, -, -, hhears, -⟩ := stepped hs.kept h
  have hmade := step_made hput h
  have hle := hhears.completed_prefix.length_le
  have hle' : net.completed.length ≤ net.made.length :=
    hs'.completed_le.trans (hs'.kept.acked_le.trans hs'.kept.taken_le)
  set n := r.net.completed.length
  set n' := net.completed.length
  have hnew : net.completed.drop n =
      (between net.made n n').map (verdict (effect cmp rules)) := by
    rw [hs'.completed_eq, ← List.map_drop]
    rfl
  have hsplit : r.net.made.drop n = between net.made n n' ++ net.made.drop n' := by
    rw [← hmade, ← between_length, ← between_length, between_append hle hle' le_rfl]
  have hfirst : r.pendingWriteTree.allWrites =
      (between net.made n n' ++ net.made.drop n').map record := by
    rw [hr.allWrites, hsplit]
  obtain ⟨t', hack, hlayered, hpending⟩ := ackWrites_first hr.layered hfirst
  refine ⟨⟨net, t', r.writeIdCounter⟩, ?_, rfl, hlayered, ⟨_, _, _, _, hs'⟩, hpending⟩
  rw [step_connection hput, h, Option.bind_some, hnew, hack]
  rfl

lemma Consistent.step (hr : Consistent cmp scmp rules data₀ r) {e : Event Q K V}
    (he : Orderly cmp r e) (h : step cmp scmp rules r e = some r') :
    Consistent cmp scmp rules data₀ r' := by
  cases e with
  | set path node => exact hr.set he h
  | connection e =>
    by_cases hput : ∃ p, e = .putData p
    · obtain ⟨p, rfl⟩ := hput
      cases h
    · replace hput : ∀ p, e ≠ .putData p := fun p hp => hput ⟨p, hp⟩
      obtain ⟨net, hnet, -⟩ := Option.bind_eq_some_iff.mp (step_connection hput ▸ h)
      obtain ⟨r'', hstep, -, hr''⟩ := hr.connection he hput hnet
      rw [hstep] at h
      cases h
      exact hr''

lemma consistent_run {es : List (Event Q K V)}
    (hes : Along (step cmp scmp rules) (Orderly cmp) (init data₀) es)
    (h : run (step cmp scmp rules) (init data₀) es = some r) :
    Consistent cmp scmp rules data₀ r :=
  run_inv_along (fun _ _ _ hr he hstep => hr.step he hstep) (consistent_init data₀) hes h

/-- A write whose answer is lost, another one that is refused, and both again. -/
def answerLost : List (Event Unit ℕ ℕ) :=
  [.set [1] (.leaf 5), .connection .fetchToken, .connection (.tokenFetched none),
    .connection .ready, .connection (.answer 0 true), .connection .disconnect,
    .set [1] (.leaf 6), .connection .fetchToken, .connection (.tokenFetched none),
    .connection .ready, .connection (.answer 0 true), .connection .receive]

/-- Only the first write is allowed. -/
def onlyFirst (put : FPut ℕ ℕ) : Bool := put.writeId = 0

lemma answerLost_orderly : Along (step compare compare onlyFirst) (Orderly compare)
    (init (FNode.emptyNode.valueAt compare)) answerLost := by
  refine ⟨⟨.leaf 5, rfl⟩, ?_⟩
  rintro _ ⟨⟩
  iterate 5
    refine ⟨fun _ => rfl, ?_⟩
    rintro _ ⟨⟩
  refine ⟨⟨.leaf 6, rfl⟩, ?_⟩
  rintro _ ⟨⟩
  iterate 5
    refine ⟨fun _ => rfl, ?_⟩
    rintro _ ⟨⟩
  trivial

/-- The server made the first write twice. -/
def stored : FNode ℕ ℕ :=
  (FNode.emptyNode.updateChild compare [1] (.leaf 5)).updateChild compare [1] (.leaf 5)

theorem completions_find_writes_answerLost : ∃ r net r',
    run (step compare compare onlyFirst) (init (FNode.emptyNode.valueAt compare)) answerLost =
      some r ∧
    Exchange.step (effect compare onlyFirst) r.net (.answer 0 true) = some net ∧
    step compare compare onlyFirst r (.connection (.answer 0 true)) = some r' ∧ r'.net = net := by
  obtain ⟨r, net, hrun, hnet⟩ : ∃ r net,
      run (step compare compare onlyFirst) (init (FNode.emptyNode.valueAt compare)) answerLost =
        some r ∧
      Exchange.step (effect compare onlyFirst) r.net (.answer 0 true) = some net :=
    ⟨_, _, rfl, rfl⟩
  obtain ⟨r', hstep, heq⟩ := (completions_find_writes hrun).2 _ net (fun _ h => by cases h) hnet
  exact ⟨r, net, r', hrun, hnet, hstep, heq⟩

end FRepo

end Solta
