import Okws.TimehashMem

/-! `timehash_t::traverse_keys`: the keys of a table go to a callback, which may come back to the
table. -/

universe u v

namespace Okws

open Lib

/-- The callback has the key of a node, and the node behind it is already known; or the traversal
is at a node that is not in the queue any more. -/
inductive TraversePhase (K : Type v)
  | calling (k : K) (n : Nat) (np : Option Nat)
  | done
  | dangling (n : Nat)

/-- `start` is the queue as it was at first, and `calls` are the nodes whose keys the callback
was given. -/
structure Traversal (V : Type u) (K : Type v) where
  table : TimehashMem V
  phase : TraversePhase K := .done
  start : List Nat
  calls : List Nat := []

/-- `tailq::next`. -/
def nextOf : List Nat → Nat → Option Nat
  | [], _ => none
  | i :: q, n => if i = n then q.head? else nextOf q n

namespace Traversal

variable {V : Type u} {K : Type v} [Keyfn V K] [DecidableEq K]

/-- A round of `tailq::traverse`, with `node2key`. -/
def visit (w : Traversal V K) : Option Nat → Traversal V K
  | none => { w with phase := .done }
  | some n =>
    if n ∈ w.table.q then match w.table.mem n with
      | some m => { w with
          phase := .calling (key m.val) n (nextOf w.table.q n)
          calls := w.calls ++ [n] }
      | none => { w with phase := .dangling n }
    else { w with phase := .dangling n }

def traverseKeys (s : TimehashMem V) : Traversal V K :=
  visit { table := s.expire, start := s.expire.q } s.expire.q.head?

/-- The callback looks its key up, removes it, or inserts it again; and time goes on. -/
def allows (k : K) : TimehashOp V K → Bool
  | .lookup k' | .lookupConst k' | .remove k' => k' = k
  | .insert v => key v = k
  | .tick _ => true
  | _ => false

variable (V K) in
inductive Event
  | op (o : TimehashOp V K)
  | ret

def step (w : Traversal V K) (e : Event V K) : Option (Traversal V K) := match w.phase, e with
  | .calling k _ _, .op o => if allows k o then some { w with table := w.table.step o } else none
  | .calling _ _ np, .ret => some (w.visit np)
  | _, _ => none

variable (V K) in
def system : System (Traversal V K) (Event V K) where
  init w := ∃ s, (TimehashMem.system V K).Reachable s ∧ w = traverseKeys s
  step := step

/-- What `expire` is going to remove. -/
def Due (s : TimehashMem V) (n : Nat) : Prop :=
  s.timeout ≠ 0 ∧ ∃ m, s.mem n = some m ∧ (m.ctime : Int) < s.now - s.timeout

/-- The functions that call `expire`. -/
def expires : Event V K → Bool
  | .op (.lookup _) | .op (.remove _) | .op (.insert _) => true
  | _ => false

/-- As long as there is a next node: it is not due when the callback makes the table expire, and a
node whose key was given to the callback is not rejuvenated. -/
def Meets (w : Traversal V K) (e : Event V K) : Prop :=
  ∀ k n np, w.phase = .calling k n (some np) →
    (expires e = true → ¬ Due w.table np) ∧
    ∀ k', e = .op (.lookup k') → w.table.rejuvenates = true →
      ∀ i, w.table.find k' = some i → i ∉ w.calls

/-- Only nodes in the queue are followed; a node that was there at the start gets to the callback
once at most, in its turn, and at the end those that are still there did. -/
structure Sound (w : Traversal V K) : Prop where
  safe : ∀ n, w.phase ≠ .dangling n
  once : ∀ n ∈ w.start, w.calls.count n ≤ 1
  turn : w.calls <+: w.start ∨ w.start <+: w.calls
  all : w.phase = .done → ∀ n ∈ w.start, n ∈ w.table.q → n ∈ w.calls

section Next

variable {n : Nat} {P R : List Nat}

theorem nextOf_append (hn : n ∉ P) : nextOf (P ++ n :: R) n = R.head? := by
  induction P with
  | nil => exact if_pos rfl
  | cons i P ih =>
    obtain ⟨hne, hn⟩ := not_or.1 (List.mem_cons.not.1 hn)
    exact (if_neg (Ne.symm hne)).trans (ih hn)

end Next

/-- What is still ahead in the queue: the rest of the nodes that were there at the start, with the
next one at its head, and behind it none of them. -/
structure Ahead (s : TimehashMem V) (start D : List Nat) (np : Option Nat) : Prop where
  queue : ∃ P F, s.q = P ++ (D ++ F) ∧ (D ++ F).head? = np ∧ ∀ i ∈ F, i ∉ start

/-- The nodes ahead have other keys than the one the callback was given. -/
def Others (s : TimehashMem V) (D : List Nat) (k : K) (np : Nat) : Prop :=
  ∀ i, i ∈ D ∨ i = np → ∀ m, s.mem i = some m → key m.val ≠ k

section Steps

variable {s s' : TimehashMem V} {t : Timehash V} {start D : List Nat} {k : K} {np j : Nat}

theorem Ahead.mem (h : Ahead s start D (some np)) : np ∈ s.q ∧ ∀ i ∈ D, i ∈ s.q := by
  obtain ⟨P, F, hq, hhead, -⟩ := h.queue
  rw [hq]
  exact ⟨List.mem_append_right _ (List.mem_of_mem_head? hhead),
    fun i hi => List.mem_append_right _ (List.mem_append_left _ hi)⟩

omit [DecidableEq K] in
theorem Others.ne (ho : Others s D k np) {m : TimehashNode V} (hj : s.mem j = some m)
    (hkey : key m.val = k) : j ∉ D ∧ j ≠ np :=
  ⟨fun hmem => ho j (.inl hmem) m hj hkey, fun heq => ho j (.inr heq) m hj hkey⟩

theorem Ahead.congr (h : Ahead s start D (some np)) (hq : s'.q = s.q) :
    Ahead s' start D (some np) :=
  ⟨hq ▸ h.queue⟩

theorem Ahead.erase (h : Ahead s start D (some np)) (hq : s'.q = s.q.erase j) (hD : j ∉ D)
    (hnp : j ≠ np) : Ahead s' start D (some np) := by
  obtain ⟨P, F, hs, hhead, hF⟩ := h.queue
  rw [hs, List.erase_append] at hq
  split at hq
  · exact ⟨P.erase j, F, hq, hhead, hF⟩
  · rw [List.erase_append_right _ hD] at hq
    refine ⟨P, F.erase j, hq, ?_, fun i hi => hF i (List.mem_of_mem_erase hi)⟩
    cases D with
    | cons i D => exact hhead
    | nil =>
      cases F with
      | nil => cases hhead
      | cons i F =>
        obtain rfl := Option.some.inj hhead
        rw [List.nil_append, List.erase_cons_tail (by simpa using Ne.symm hnp)]
        rfl

theorem Ahead.push (h : Ahead s start D (some np)) (hq : s'.q = s.q ++ [j]) (hj : j ∉ start) :
    Ahead s' start D (some np) := by
  obtain ⟨P, F, hs, hhead, hF⟩ := h.queue
  refine ⟨P, F ++ [j], ?_, ?_, fun i hi => ?_⟩
  · rw [hq, hs]
    simp only [List.append_assoc]
  · rw [← List.append_assoc, List.head?_append, hhead]
    rfl
  · obtain hi | hi := List.mem_append.1 hi
    · exact hF i hi
    · exact List.mem_singleton.1 hi ▸ hj

theorem Ahead.expire (h : Ahead s start D (some np)) (hr : TimehashMem.Refines s t)
    (hdue : ¬ Due s np) :
    Ahead s.expire start D (some np) ∧ ∀ i, i ∈ D ∨ i = np → s.expire.mem i = s.mem i := by
  obtain ⟨P, F, hs, hhead, hF⟩ := h.queue
  unfold TimehashMem.expire
  split
  · exact ⟨h, fun _ _ => rfl⟩
  · next htimeout =>
    obtain ⟨gone, hq, hold, hsame⟩ :=
      hr.expireLoop_gone ((s.now : Int) - s.timeout) s.q.length
    have hnot : np ∉ gone := by
      intro hmem
      obtain ⟨m, hm, hlt⟩ := hold np hmem
      exact hdue ⟨htimeout, m, hm, hlt⟩
    obtain ⟨R, hR⟩ : ∃ R, D ++ F = np :: R := by
      cases hDF : D ++ F with
      | nil => rw [hDF] at hhead; cases hhead
      | cons i R =>
        rw [hDF] at hhead
        obtain rfl := Option.some.inj hhead
        exact ⟨R, rfl⟩
    obtain ⟨P', hP'⟩ : ∃ P', (TimehashMem.expireLoop ((s.now : Int) - s.timeout) s.q.length s).q =
        P' ++ (D ++ F) := by
      obtain ⟨as, hP, hrest⟩ | ⟨bs, hgone, hrest⟩ := List.append_eq_append_iff.1 (hq.symm.trans hs)
      · exact ⟨as, hrest⟩
      · cases bs with
        | nil => exact ⟨[], hrest.symm⟩
        | cons i bs =>
          rw [hR] at hrest
          obtain ⟨rfl, -⟩ := List.cons.inj hrest
          exact absurd (hgone ▸ List.mem_append_right _ (.head _)) hnot
    refine ⟨⟨P', F, hP', hhead, hF⟩, fun i hi => hsame i ?_⟩
    rw [hP']
    obtain hi | rfl := hi
    · exact List.mem_append_right _ (List.mem_append_left _ hi)
    · exact List.mem_append_right _ (List.mem_of_mem_head? hhead)

/-- What a function of the table leaves as it was for the traversal. -/
structure Keeps (s s' : TimehashMem V) (start D : List Nat) (np : Nat) : Prop where
  ahead : Ahead s' start D (some np)
  mem : ∀ i, i ∈ D ∨ i = np → s'.mem i = s.mem i
  next : s.next ≤ s'.next

theorem Keeps.trans {s'' : TimehashMem V} (h : Keeps s s' start D np)
    (h' : Keeps s' s'' start D np) : Keeps s s'' start D np :=
  ⟨h'.ahead, fun i hi => (h'.mem i hi).trans (h.mem i hi), Nat.le_trans h.next h'.next⟩

theorem Keeps.refl (h : Ahead s start D (some np)) : Keeps s s start D np :=
  ⟨h, fun _ _ => rfl, Nat.le_refl _⟩

omit [DecidableEq K] in
theorem Others.keep (ho : Others s D k np) (h : Keeps s s' start D np) : Others s' D k np :=
  fun i hi m hm => ho i hi m ((h.mem i hi).symm.trans hm)

theorem next_expireLoop (deadline : Int) (n : Nat) (s : TimehashMem V) :
    (TimehashMem.expireLoop deadline n s).next = s.next := by
  induction n generalizing s with
  | zero => rfl
  | succ n ih =>
    unfold TimehashMem.expireLoop
    split
    · rfl
    · split
      · split
        · exact ih _
        · rfl
      · rfl

theorem keeps_expire (h : Ahead s start D (some np)) (hr : TimehashMem.Refines s t)
    (hdue : ¬ Due s np) : Keeps s s.expire start D np := by
  obtain ⟨hahead, hmem⟩ := h.expire hr hdue
  refine ⟨hahead, hmem, ?_⟩
  unfold TimehashMem.expire
  split
  · exact Nat.le_refl _
  · exact Nat.le_of_eq (next_expireLoop _ _ _).symm

theorem keeps_remove (h : Ahead s start D (some np)) (ho : Others s D k np)
    (hr : TimehashMem.Refines s t) (hdue : ¬ Due s np) :
    Keeps s (s.remove k).2 start D np := by
  have hexp := keeps_expire h hr hdue
  unfold TimehashMem.remove
  dsimp only
  split
  · next j hj =>
    obtain ⟨-, m, hm, hkey⟩ := hr.expire.find_some hj
    obtain ⟨hD, hnp⟩ := (ho.keep hexp).ne hm hkey
    refine hexp.trans ⟨hexp.ahead.erase rfl hD hnp, fun i hi => if_neg ?_, Nat.le_refl _⟩
    rintro rfl
    exact hi.elim hD hnp
  · exact hexp

theorem keeps_insert (h : Ahead s start D (some np)) {v : V} (ho : Others s D (key v) np)
    (hr : TimehashMem.Refines s t) (hdue : ¬ Due s np) (hbound : ∀ i ∈ start, i < s.next) :
    Keeps s (s.insert v) start D np := by
  have hrem := keeps_remove h ho hr hdue
  have hlt := (hr.remove (key v)).lt
  have hnew : (s.remove (key v)).2.next ∉ start := fun hmem =>
    Nat.not_lt.2 hrem.next (hbound _ hmem)
  obtain ⟨hnp, hD⟩ := hrem.ahead.mem
  refine hrem.trans ⟨hrem.ahead.push rfl hnew, fun i hi => if_neg ?_, Nat.le_succ _⟩
  rintro rfl
  obtain hi | hi := hi
  · exact Nat.lt_irrefl _ (hlt _ (hD _ hi))
  · exact Nat.lt_irrefl _ (hlt _ (hi ▸ hnp))

theorem keeps_rejuvenate (h : Ahead s start D (some np)) (ho : Others s D k np)
    (hr : TimehashMem.Refines s t) (hnew : ∀ i, s.find k = some i → i ∉ D → i ∉ start) :
    Keeps s (s.rejuvenate k).2 start D np := by
  unfold TimehashMem.rejuvenate
  split
  · next j hj =>
    obtain ⟨-, m, hm, hkey⟩ := hr.find_some hj
    obtain ⟨hD, hnp⟩ := ho.ne hm hkey
    have hgone : Ahead { s with q := s.q.erase j } start D (some np) := h.erase rfl hD hnp
    refine ⟨hgone.push rfl (hnew j hj hD), fun i hi => if_neg ?_, Nat.le_refl _⟩
    rintro rfl
    exact hi.elim hD hnp
  · exact .refl h

theorem due_rejuvenate (h : Keeps s (s.rejuvenate k).2 start D np) :
    Due (s.rejuvenate k).2 np ↔ Due s np := by
  have hframe : (s.rejuvenate k).2.timeout = s.timeout ∧ (s.rejuvenate k).2.now = s.now := by
    unfold TimehashMem.rejuvenate
    split
    · exact ⟨rfl, rfl⟩
    · exact ⟨rfl, rfl⟩
  unfold Due
  rw [h.mem np (.inr rfl), hframe.1, hframe.2]

theorem keeps_get (h : Ahead s start D (some np)) (ho : Others s D k np)
    (hr : TimehashMem.Refines s t) (hdue : ¬ Due s np)
    (hnew : s.rejuvenates = true → ∀ i, s.find k = some i → i ∉ D → i ∉ start) :
    Keeps s (s.get k).2 start D np := by
  unfold TimehashMem.get
  dsimp only
  split
  · next hrej =>
    have hren := keeps_rejuvenate h ho hr (hnew hrej)
    obtain ⟨t', hr'⟩ := hr.rejuvenate k
    exact hren.trans (keeps_expire hren.ahead hr' ((due_rejuvenate hren).not.2 hdue))
  · exact keeps_expire h hr hdue

theorem keeps_step (h : Ahead s start D (some np)) (ho : Others s D k np)
    (hr : TimehashMem.Refines s t) (hbound : ∀ i ∈ start, i < s.next) {o : TimehashOp V K}
    (hallow : allows k o = true) (hdue : expires (.op o) = true → ¬ Due s np)
    (hnew : ∀ k', o = .lookup k' → s.rejuvenates = true → ∀ i, s.find k' = some i →
      i ∉ D → i ∉ start) :
    Keeps s (s.step o) start D np := by
  cases o with
  | insert v =>
    obtain rfl : key v = k := of_decide_eq_true hallow
    exact keeps_insert h ho hr (hdue rfl) hbound
  | lookup k' =>
    obtain rfl : k' = k := of_decide_eq_true hallow
    exact keeps_get h ho hr (hdue rfl) (hnew k' rfl)
  | lookupConst k' => exact .refl h
  | remove k' =>
    obtain rfl : k' = k := of_decide_eq_true hallow
    exact keeps_remove h ho hr (hdue rfl)
  | tick dt => exact ⟨h.congr rfl, fun _ _ => rfl, Nat.le_refl _⟩
  | rejuvenate | expire | expireBefore | clear => cases hallow

end Steps

/-- The nodes of the start that were given to the callback, `C`, and those that were not yet. -/
structure Inv (w : Traversal V K) : Prop where
  refines : ∃ t, TimehashMem.Refines w.table t
  nodup : w.start.Nodup
  split : ∃ C D E, w.start = C ++ D ∧ w.calls = C ++ E ∧ (D = [] ∨ E = []) ∧
    (∀ i ∈ E, i ∉ w.start) ∧ match w.phase with
      | .calling k _ (some np) => Ahead w.table w.start D (some np) ∧ Others w.table D k np ∧
          ∀ i ∈ w.start, i < w.table.next
      | .calling _ _ none | .done => D = []
      | .dangling _ => False

section Runs

variable {w w' : Traversal V K}

omit [DecidableEq K] in
theorem others_behind {s : TimehashMem V} {t : Timehash V} (hr : TimehashMem.Refines s t)
    {P R : List Nat} {n i : Nat} {m m' : TimehashNode V} (hq : s.q = P ++ n :: R)
    (hm : s.mem n = some m) (hi : i ∈ R) (hm' : s.mem i = some m') : key m'.val ≠ key m.val := by
  have hkeys := hr.consistent.keys
  rw [TimehashMem.nodes, hq, List.filterMap_append, List.filterMap_cons_some hm, List.map_append,
    List.map_cons] at hkeys
  obtain ⟨-, hcons, -⟩ := List.nodup_append.1 hkeys
  intro heq
  refine (List.nodup_cons.1 hcons).1 (heq ▸ List.mem_map_of_mem ?_)
  exact List.mem_filterMap.2 ⟨i, hi, hm'⟩

omit [DecidableEq K] in
theorem visit_inv {t : Timehash V} {np : Option Nat} {C D E : List Nat}
    (hr : TimehashMem.Refines w.table t) (hbound : ∀ i ∈ w.start, i < w.table.next)
    (hnodup : w.start.Nodup) (hstart : w.start = C ++ D) (hcalls : w.calls = C ++ E)
    (hDE : D = [] ∨ E = []) (hE : ∀ i ∈ E, i ∉ w.start)
    (hahead : np = none → D = []) (hnp : ∀ n, np = some n → Ahead w.table w.start D (some n)) :
    Inv (w.visit np) := by
  cases np with
  | none => exact ⟨⟨t, hr⟩, hnodup, C, D, E, hstart, hcalls, hDE, hE, hahead rfl⟩
  | some n =>
    obtain ⟨P, F, hq, hhead, hF⟩ := (hnp n rfl).queue
    have hn : n ∈ w.table.q := (hnp n rfl).mem.1
    obtain ⟨m, hm⟩ := Option.isSome_iff_exists.1 (hr.valid n hn)
    -- the next state
    have hvisit : w.visit (some n) = { w with
        phase := .calling (key m.val) n (nextOf w.table.q n)
        calls := w.calls ++ [n] } := by
      rw [visit, if_pos hn, hm]
    -- the lists behind the node
    obtain ⟨C', D', E', F', hstart', hcalls', hDE', hE', hF', hq'⟩ : ∃ C' D' E' F',
        w.start = C' ++ D' ∧ w.calls ++ [n] = C' ++ E' ∧ (D' = [] ∨ E' = []) ∧
          (∀ i ∈ E', i ∉ w.start) ∧ (∀ i ∈ F', i ∉ w.start) ∧
          w.table.q = P ++ n :: (D' ++ F') := by
      cases D with
      | cons i D =>
        obtain rfl := Option.some.inj hhead
        obtain hD | rfl := hDE
        · cases hD
        · refine ⟨C ++ [i], D, [], F, ?_, ?_, .inr rfl, nofun, hF, hq⟩
          · rw [hstart, List.append_assoc, List.singleton_append]
          · rw [hcalls, List.append_nil, List.append_nil]
      | nil =>
        cases F with
        | nil => cases hhead
        | cons i F =>
          obtain rfl := Option.some.inj hhead
          refine ⟨C, [], E ++ [i], F, hstart, ?_, .inl rfl, fun j hj => ?_,
            fun j hj => hF j (.tail _ hj), hq⟩
          · rw [hcalls, List.append_assoc]
          · obtain hj | hj := List.mem_append.1 hj
            · exact hE j hj
            · exact List.mem_singleton.1 hj ▸ hF i (.head _)
    have hnP : n ∉ P := by
      have hd := hr.nodup
      rw [hq'] at hd
      exact fun hmem => (List.nodup_append.1 hd).2.2 n hmem n (.head _) rfl
    have hnext : nextOf w.table.q n = (D' ++ F').head? := by
      rw [hq', nextOf_append hnP]
    rw [hvisit]
    refine ⟨⟨t, hr⟩, hnodup, C', D', E', hstart', hcalls', hDE', hE', ?_⟩
    dsimp only
    rw [hnext]
    cases hhd : (D' ++ F').head? with
    | none =>
      have hnil : D' ++ F' = [] := List.head?_eq_none_iff.1 hhd
      exact (List.append_eq_nil_iff.1 hnil).1
    | some np =>
      refine ⟨⟨P ++ [n], F', ?_, hhd, hF'⟩, fun i hi m' hm' => ?_, hbound⟩
      · rw [hq', List.append_assoc, List.singleton_append]
      · refine others_behind hr hq' hm ?_ hm'
        obtain hi | rfl := hi
        · exact List.mem_append_left _ hi
        · exact List.mem_of_mem_head? hhd

theorem Inv.start {s : TimehashMem V} (h : (TimehashMem.system V K).Reachable s) :
    Inv (traverseKeys (K := K) s) := by
  obtain ⟨t, ht⟩ := TimehashMem.refines_reachable h
  have hr := ht.expire
  refine visit_inv (C := []) (E := []) hr hr.lt hr.nodup rfl rfl (.inr rfl) nofun
    List.head?_eq_none_iff.1 fun n hn => ?_
  have hhead := (congrArg List.head? (List.append_nil s.expire.q)).trans hn
  exact ⟨[], [], (List.append_nil _).symm, hhead, nofun⟩

theorem Inv.step {e : Event V K} (hI : Inv w) (hC : Meets w e) (h : w.step e = some w') :
    Inv w' := by
  obtain ⟨⟨t, hr⟩, hnodup, C, D, E, hstart, hcalls, hDE, hE, hphase⟩ := hI
  unfold Traversal.step at h
  split at h
  · next k n np o hw =>
    split at h
    · next hallow =>
      cases h
      rw [hw] at hphase
      refine ⟨hr.step o, hnodup, C, D, E, hstart, hcalls, hDE, hE, ?_⟩
      dsimp only
      rw [hw]
      cases np with
      | none => exact hphase
      | some np =>
        obtain ⟨hahead, hothers, hbound⟩ := hphase
        obtain ⟨hdue, hold⟩ := hC k n np hw
        have hkeep := keeps_step hahead hothers hr hbound hallow hdue
          fun k' ho hrej i hi hD hmem => by
          subst ho
          rw [hstart] at hmem
          refine hold k' rfl hrej i hi ?_
          rw [hcalls]
          exact List.mem_append_left _ ((List.mem_append.1 hmem).resolve_right hD)
        exact ⟨hkeep.ahead, hothers.keep hkeep, fun i hi =>
          Nat.lt_of_lt_of_le (hbound i hi) hkeep.next⟩
    · cases h
  · next k n np hw =>
    cases h
    rw [hw] at hphase
    cases np with
    | none => exact ⟨⟨t, hr⟩, hnodup, C, D, E, hstart, hcalls, hDE, hE, hphase⟩
    | some np =>
      obtain ⟨hahead, -, hbound⟩ := hphase
      refine visit_inv hr hbound hnodup hstart hcalls hDE hE nofun fun n hn => ?_
      obtain rfl := Option.some.inj hn
      exact hahead
  · cases h

theorem Inv.reach (h : (system V K).Reach Meets w) : Inv w := by
  refine h.invariant (fun w hw => ?_) fun w e w' _ hI hC hs => hI.step hC hs
  obtain ⟨s, hs, rfl⟩ := hw
  exact .start hs

omit [DecidableEq K] in
theorem Inv.sound (hI : Inv w) : Sound w := by
  obtain ⟨-, hnodup, C, D, E, hstart, hcalls, hDE, hE, hphase⟩ := hI
  refine ⟨fun n hn => ?_, fun n hn => ?_, ?_, fun hdone n hn _ => ?_⟩
  · rw [hn] at hphase
    exact hphase
  · rw [hcalls, List.count_append, List.count_eq_zero_of_not_mem fun hmem => hE n hmem hn]
    rw [hstart] at hnodup
    exact List.nodup_iff_count_le_one.1 (List.nodup_append.1 hnodup).1 n
  · obtain rfl | rfl := hDE
    · exact .inr ⟨E, by rw [hstart, hcalls, List.append_nil]⟩
    · exact .inl ⟨D, by rw [hstart, hcalls, List.append_nil]⟩
  · rw [hdone] at hphase
    obtain rfl : D = [] := hphase
    rw [hstart, List.append_nil] at hn
    rw [hcalls]
    exact List.mem_append_left _ hn

/-- A traversal is sound as long as nothing that comes next is due. -/
theorem traverses_soundly (h : (system V K).Reach Meets w) : Sound w := (Inv.reach h).sound

end Runs

section Examples

/-- Two names, put into a table with a time-out of ten seconds, and some time after. -/
def twoNames (dt : Nat) : TimehashMem Str :=
  ([.insert [97], .insert [98], .tick dt] : List (TimehashOp Str Str)).foldl
    (fun s op => s.step op) { timeout := 10, rejuvenates := false }

theorem init_twoNames (dt : Nat) : (system Str Str).init (traverseKeys (twoNames dt)) := by
  have hrun : (TimehashMem.system Str Str).exec { timeout := 10, rejuvenates := false }
      [.insert [97], .insert [98], .tick dt] = some (twoNames dt) := rfl
  exact ⟨_, System.reachable_exec _ ⟨10, false, rfl⟩ hrun, rfl⟩

theorem meets_of_young {w : Traversal V K} {k : K} {n i : Nat} {m : TimehashNode V}
    (hphase : w.phase = .calling k n (some i)) (hm : w.table.mem i = some m)
    (hyoung : (w.table.now : Int) - w.table.timeout ≤ m.ctime)
    (hrej : w.table.rejuvenates = false) (e : Event V K) : Meets w e := by
  intro k' n' np' hw
  cases hphase.symm.trans hw
  refine ⟨?_, fun _ _ hrejs => ?_⟩
  · rintro - ⟨-, m', hm', hlt⟩
    cases hm.symm.trans hm'
    exact absurd hlt (Int.not_lt.2 hyoung)
  · cases hrej.symm.trans hrejs

theorem meets_of_last {w : Traversal V K} {k : K} {n : Nat} (hphase : w.phase = .calling k n none)
    (e : Event V K) : Meets w e := by
  intro k' n' np' hw
  cases hphase.symm.trans hw

/-- One name is looked up, and the other one removed. -/
theorem traverses_soundly_two : ∃ w : Traversal Str Str, w.calls = [0, 1] ∧ w.phase = .done ∧
    Sound w := by
  let w₀ : Traversal Str Str := traverseKeys (twoNames 3)
  let w₁ : Traversal Str Str := { w₀ with table := w₀.table.step (.lookup [97]) }
  let w₂ := w₁.visit (some 1)
  let w₃ : Traversal Str Str := { w₂ with table := w₂.table.step (.remove [98]) }
  have h₀ : (system Str Str).Reach Meets w₀ := .init (init_twoNames 3)
  have hyoung : ∀ e, Meets w₀ e ∧ Meets w₁ e := fun e =>
    ⟨meets_of_young (k := [97]) (n := 0) (i := 1) (m := ⟨[98], 0⟩) rfl rfl (by decide) rfl e,
      meets_of_young (k := [97]) (n := 0) (i := 1) (m := ⟨[98], 0⟩) rfl rfl (by decide) rfl e⟩
  have hlast : ∀ e, Meets w₂ e ∧ Meets w₃ e := fun e =>
    ⟨meets_of_last (k := [98]) (n := 1) rfl e, meets_of_last (k := [98]) (n := 1) rfl e⟩
  have h₁ : (system Str Str).Reach Meets w₁ := h₀.step (hyoung (.op (.lookup [97]))).1 rfl
  have h₂ : (system Str Str).Reach Meets w₂ := h₁.step (hyoung .ret).2 rfl
  have h₃ : (system Str Str).Reach Meets w₃ := h₂.step (hlast (.op (.remove [98]))).1 rfl
  have h₄ : (system Str Str).Reach Meets (w₃.visit none) := h₃.step (hlast .ret).2 rfl
  exact ⟨_, rfl, rfl, traverses_soundly h₄⟩

/-- At the time-out, the second passes before the first name is looked up. -/
theorem not_traverses_soundly :
    ¬ ∀ w : Traversal Str Str, (system Str Str).Reachable w → Sound w := by
  intro h
  let w₀ : Traversal Str Str := traverseKeys (twoNames 10)
  let w₁ : Traversal Str Str := { w₀ with table := (w₀.table.step (.tick 1)).step (.lookup [97]) }
  have hrun : (system Str Str).exec w₀ [.op (.tick 1), .op (.lookup [97]), .ret] =
      some (w₁.visit (some 1)) := rfl
  have hdangling : (w₁.visit (some 1)).phase = .dangling 1 := rfl
  exact (h _ (System.reachable_exec _ (init_twoNames 10) hrun)).safe 1 hdangling

end Examples

end Traversal

end Okws
