import Mathlib.Data.List.Induction
import Okws.Reeval

namespace Okws.Pub3

open Zbuf Lib

namespace WriteBack

def els (h : Heap) (l : Nat) : List (Option Ptr) := match h[l]? with
  | some (.list els _) => els
  | _ => []

/-- A turn of the loop: the heap and the list when it begins, the value that the variable is bound to
and that the row is written back with, unless it is skipped, and the heap then, the list when its
body ends, and the list afterwards. -/
structure Turn where
  index : Nat
  heap : Heap
  before : List (Option Ptr)
  row : Option Ptr
  bound : Heap
  after : List (Option Ptr)
  written : List (Option Ptr)

/-- The turn comes before those of `m`. -/
def noteTurn (t : Turn) (m : Eval (Status × List Turn)) : Eval (Status × List Turn) := do
  let r ← m
  pure (r.1, t :: r.2)

/-- The functions of the interpreter that wait, or those that do not. -/
def evals (H : Host) (waits : Bool) : Nat → Evals := if waits then block H else nonblock H

/-- The loop of a `for`, with its turns. -/
def turns (H : Host) (waits : Bool) (f : ForLoop) :
    Nat → Nat → Status → Eval (Status × List Turn)
  | 0, _, _ => Prog.stuck
  | n + 1, i, status => do
    if ← act handleForloop then do
      noteExit
      let before ← mem (listEls f.list)
      if i < before.length then do
        let a ← act get
        let rev ← rowValue (evals H waits n).toRef (before[i]?).join
        let b ← act get
        match rev, f.body with
        | none, _ => do
          reportError f.line (text "for: row " ++ decimal i ++ text " is undefined!")
          let s ← act get
          let l := els s.heap f.list
          noteTurn ⟨i, a.heap, before, none, b.heap, l, l⟩ (turns H waits f n (i + 1) status)
        | some _, none => do
          let s ← act get
          let l := els s.heap f.list
          noteTurn ⟨i, a.heap, before, none, b.heap, l, l⟩ (turns H waits f n (i + 1) status)
        | some x, some z => do
          act (insertTab f.locals f.iter (some x))
          let size ← act (pushLocals f.locals .locals)
          let tmp ← (evals H waits n).zone z
          let s ← act get
          act (popTo size)
          mem (setRow f.list i x)
          let t ← act get
          noteTurn ⟨i, a.heap, before, some x, b.heap, els s.heap f.list, els t.heap f.list⟩
            (turns H waits f n (i + 1) (if tmp = .ok then status else tmp))
      else pure (status, [])
    else pure (status, [])

section Erasing

variable {α β γ : Type}

theorem map_bind (g : β → γ) (m : Eval α) (k : α → Eval β) :
    g <$> (m >>= k) = m >>= fun a => g <$> k a := Prog.bind_assoc m k _

theorem map_ite (g : α → β) (c : Prop) [Decidable c] (m m' : Eval α) :
    g <$> (if c then m else m') = if c then g <$> m else g <$> m' := by
  split <;> rfl

theorem get_bind (m : Eval α) : (act get >>= fun _ => m) = m := rfl

theorem fst_noteTurn (t : Turn) (m : Eval (Status × List Turn)) :
    Prod.fst <$> noteTurn t m = Prod.fst <$> m := by
  unfold noteTurn
  rw [map_bind]
  rfl

theorem evals_zero (H : Host) (waits : Bool) : evals H waits 0 = .stuck := by cases waits <;> rfl

theorem evals_forLoop (H : Host) (waits : Bool) (n : Nat) :
    (evals H waits (n + 1)).forLoop = Nonblock.forTurn (evals H waits n) := by
  cases waits <;> rfl

theorem fst_turns (H : Host) (waits : Bool) (f : ForLoop) (n i : Nat) (status : Status) :
    Prod.fst <$> turns H waits f n i status = (evals H waits n).forLoop f i status := by
  induction n generalizing i status with
  | zero =>
    rw [evals_zero]
    rfl
  | succ n ih =>
    rw [evals_forLoop]
    unfold turns Nonblock.forTurn
    simp only [map_bind, map_ite]
    refine congrArg (_ >>= ·) (funext fun b => if_congr .rfl ?_ rfl)
    refine congrArg (_ >>= ·) (funext fun _ => congrArg (_ >>= ·) (funext fun before => ?_))
    refine if_congr .rfl ?_ rfl
    refine .trans (congrArg (_ >>= ·) (funext fun a => congrArg (_ >>= ·) (funext fun rev =>
      .trans (congrArg (_ >>= ·) (funext fun b => ?_)) (get_bind _)))) (get_bind _)
    cases rev with
    | none => simp only [map_bind, fst_noteTurn, ih, get_bind]
    | some x =>
      cases f.body with
      | none => simp only [fst_noteTurn, ih, get_bind, map_bind]
      | some z => simp only [map_bind, fst_noteTurn, ih, get_bind]

end Erasing

/-- The row is written back to its place, if it was not skipped. -/
structure Turn.Written (t : Turn) : Prop where
  index : t.index < t.before.length
  written : t.written = t.row.elim t.after fun x => t.after.set t.index (some x)

/-- The turns begin with the list `l`, and each one with the list that the one before left, and
they end with `l'`. -/
def Follow (l' : List (Option Ptr)) : List (Option Ptr) → List Turn → Prop
  | l, [] => l = l'
  | l, t :: ts => t.before = l ∧ t.Written ∧ Follow l' t.written ts

section Following

variable {H : Host} {waits : Bool} {f : ForLoop} {l : Nat} {h h' : Heap}

abbrev always : Step → Prop := fun _ => True

theorem els_of_listEls {before : List (Option Ptr)} (hl : listEls l h = some (before, h')) :
    before = els h l ∧ h' = h := by
  obtain ⟨⟨o, h₁⟩, ho, hl⟩ := Option.bind_eq_some_iff.mp hl
  obtain ⟨o, ha, ho⟩ := Option.map_eq_some_iff.mp ho
  cases ho
  cases o with
  | list xs st =>
    cases hl
    exact ⟨by rw [els, ha], rfl⟩
  | _ => cases hl

theorem els_of_setRow {i : Nat} {x : Ptr} {u : Unit} (hl : setRow l i x h = some (u, h')) :
    els h' l = (els h l).set i (some x) := by
  obtain ⟨⟨o, h₁⟩, ho, hl⟩ := Option.bind_eq_some_iff.mp hl
  obtain ⟨o, ha, ho⟩ := Option.map_eq_some_iff.mp ho
  cases ho
  cases o with
  | list xs st =>
    cases hl
    have hlt := (List.getElem?_eq_some_iff.mp ha).1
    rw [els, els, ha, List.getElem?_set_self hlt]
  | _ => cases hl

theorem noteTurn_follow {t : Turn} {m : Eval (Status × List Turn)} {s : State}
    {xs : List (Option Ptr)} (hb : t.before = xs) (hw : t.Written)
    (hm : Ensures always m s fun r u => Follow (els u.heap l) t.written r.2) :
    Ensures always (noteTurn t m) s fun r u => Follow (els u.heap l) xs r.2 :=
  .bind (hm.imp fun _ _ hr => .pure ⟨hb, hw, hr⟩)

theorem turns_follow (n i : Nat) (status : Status) (s : State) :
    Ensures always (turns H waits f n i status) s fun r t =>
      Follow (els t.heap f.list) (els s.heap f.list) r.2 := by
  induction n generalizing i status s with
  | zero => exact .stuck
  | succ n ih =>
    refine .bind (.lift fun go t hgo => ?_)
    cases hgo
    refine .ite (fun _ => ?_) fun _ => .pure rfl
    refine .bind (.noteIf fun _ => .bind (ensures_mem fun before h' hb => ?_))
    obtain ⟨rfl, rfl⟩ := els_of_listEls hb
    refine .ite (fun hi => .bind (.lift fun a t ha => ?_)) fun _ => .pure rfl
    cases ha
    refine .bind fun _ r₁ _ _ => .bind (.lift fun b t hb => ?_)
    cases hb
    cases r₁.1 with
    | none =>
      refine .bind fun _ r₂ _ _ => .bind (.lift fun u t hu => ?_)
      cases hu
      exact noteTurn_follow rfl ⟨hi, rfl⟩ (ih _ _ _)
    | some x =>
      cases f.body with
      | none =>
        refine .bind (.lift fun u t hu => ?_)
        cases hu
        exact noteTurn_follow rfl ⟨hi, rfl⟩ (ih _ _ _)
      | some z =>
        refine .bind fun _ r₂ _ _ => .bind fun _ r₃ _ _ => .bind fun _ r₄ _ _ => ?_
        refine .bind (.lift fun u t hu => ?_)
        cases hu
        refine .bind (.lift fun _ t ht => ?_)
        cases ht
        refine .bind (ensures_mem fun _ h' hset => ?_)
        refine .bind (.lift fun u t hu => ?_)
        cases hu
        exact noteTurn_follow rfl ⟨hi, els_of_setRow hset⟩ (ih _ _ _)

end Following

/-- The value that the variable is bound to is like the element that was there. -/
def Turn.Alike (t : Turn) : Prop :=
  ∀ p x, (t.before[t.index]?).join = some p → t.row = some x → Reeval.Like t.heap t.bound p x

/-- What the turn should make of the list: where the body left what was there, the row holds the
value that the variable of the loop was bound to, with what was made of it through the variable, if
that is the element and not another value; all else is as it was; and everywhere else the list is as
the body left it. -/
noncomputable def Turn.ideal (t : Turn) (l : List (Option Ptr)) : List (Option Ptr) :=
  open Classical in
  t.after.mapIdx fun j a =>
    if t.before[j]? = some a then
      (if j = t.index ∧ t.Alike then t.row.orElse fun _ => (l[j]?).join else (l[j]?).join)
    else a

/-- The body leaves at the place of the row what was there, and the value of the row is like it, or
the body puts the value of the row there. -/
def Turn.Respects (t : Turn) : Prop :=
  ∀ x, t.row = some x → t.after[t.index]? = t.before[t.index]? ∧ t.Alike ∨
    t.after[t.index]? = some (some x)

def listAfter (l : List (Option Ptr)) (ts : List Turn) : List (Option Ptr) :=
  (ts.getLast?.map Turn.written).getD l

structure Finished (H : Host) where
  waits : Bool
  loop : ForLoop
  depth : Nat
  line : Nat
  state : State
  status : Status
  line' : Nat
  final : State
  ran : ((evals H waits depth).forLoop loop 0 .ok line state).out = some (status, line', final)

def Finished.turns {H : Host} (r : Finished H) : List Turn :=
  (((WriteBack.turns H r.waits r.loop r.depth 0 .ok r.line r.state).out).map (·.1.2)).getD []

/-- After each of its turns the list is as it should be, and so it is in the end; and no row is
written back to a place that the list does not have. -/
structure Finished.Kept {H : Host} (r : Finished H) : Prop where
  reached : ∀ ts, ts <+: r.turns → listAfter (els r.state.heap r.loop.list) ts =
    ts.foldl (fun l t => t.ideal l) (els r.state.heap r.loop.list)
  final : els r.final.heap r.loop.list =
    r.turns.foldl (fun l t => t.ideal l) (els r.state.heap r.loop.list)
  inside : ∀ t ∈ r.turns, t.row.isSome → t.index < t.after.length

section Keeping

variable {t : Turn} {l l' : List (Option Ptr)} {ts pre post : List Turn}

theorem Turn.getElem?_ideal (t : Turn) {j : Nat} (hj : j ≠ t.index ∨ t.row = none) :
    (t.ideal t.before)[j]? = t.after[j]? := by
  unfold Turn.ideal
  rw [List.getElem?_mapIdx]
  cases t.after[j]? with
  | none => rfl
  | some a =>
    rw [Option.map_some]
    split
    · next hb =>
      rw [hb]
      obtain hj | hr := hj
      · rw [if_neg fun h => hj h.1]
        rfl
      · rw [hr]
        split <;> rfl
    · rfl

theorem Turn.getElem?_ideal_index (t : Turn) {x : Ptr} (hx : t.row = some x) {a : Option Ptr}
    (ha : t.after[t.index]? = some a) : open Classical in (t.ideal t.before)[t.index]? =
      some (if t.before[t.index]? = some a ∧ t.Alike then some x else a) := by
  unfold Turn.ideal
  rw [List.getElem?_mapIdx, ha, Option.map_some, hx]
  by_cases hb : t.before[t.index]? = some a
  · rw [if_pos hb]
    by_cases hal : t.Alike
    · rw [if_pos ⟨rfl, hal⟩, if_pos ⟨hb, hal⟩]
      rfl
    · rw [if_neg fun h => hal h.2, if_neg fun h => hal h.2, hb]
      rfl
  · rw [if_neg hb, if_neg fun h => hb h.1]

theorem Turn.Written.ideal_iff (hw : t.Written) :
    t.written = t.ideal t.before ∧ (t.row.isSome → t.index < t.after.length) ↔ t.Respects := by
  cases hr : t.row with
  | none =>
    refine iff_of_true ⟨?_, nofun⟩ fun x hx => nomatch hr.symm.trans hx
    rw [hw.written, hr]
    exact List.ext_getElem? fun j => (t.getElem?_ideal (.inr hr)).symm
  | some x =>
    have hwritten : t.written = t.after.set t.index (some x) := by rw [hw.written, hr]; rfl
    constructor
    · rintro ⟨heq, hin⟩ y hy
      cases hr.symm.trans hy
      have ha := List.getElem?_eq_getElem (hin rfl)
      have hrow := t.getElem?_ideal_index hr ha
      rw [← heq, hwritten, List.getElem?_set_self (hin rfl)] at hrow
      split at hrow
      · next hb => exact .inl ⟨ha.trans hb.1.symm, hb.2⟩
      · exact .inr (ha.trans hrow.symm)
    · intro hresp
      have hin : t.index < t.after.length := by
        obtain ⟨ha, -⟩ | ha := hresp x hr
        · have hb := ha.trans (List.getElem?_eq_getElem hw.index)
          exact (List.getElem?_eq_some_iff.mp hb).1
        · exact (List.getElem?_eq_some_iff.mp ha).1
      refine ⟨List.ext_getElem? fun j => ?_, fun _ => hin⟩
      rw [hwritten]
      by_cases hj : j = t.index
      · subst hj
        have ha := List.getElem?_eq_getElem hin
        rw [List.getElem?_set_self hin, t.getElem?_ideal_index hr ha]
        split
        · rfl
        · next hb =>
          refine ((hresp x hr).resolve_left fun hab => hb ⟨?_, hab.2⟩).symm.trans ha
          exact hab.1.symm.trans ha
      · rw [List.getElem?_set_ne (Ne.symm hj), t.getElem?_ideal (.inl hj)]

theorem listAfter_cons (l : List (Option Ptr)) (t : Turn) (ts : List Turn) :
    listAfter l (t :: ts) = listAfter t.written ts := by
  cases ts with
  | nil => rfl
  | cons u ts =>
    unfold listAfter
    rw [List.getLast?_cons_cons]
    cases hl : (u :: ts).getLast? with
    | none => exact absurd (List.getLast?_eq_none_iff.mp hl) nofun
    | some v => rfl

theorem Follow.listAfter (hf : Follow l' l ts) : WriteBack.listAfter l ts = l' := by
  induction ts generalizing l with
  | nil => exact hf
  | cons t ts ih => rw [listAfter_cons, ih hf.2.2]

theorem Follow.mem (hf : Follow l' l ts) (ht : t ∈ ts) : t.Written := by
  induction ts generalizing l with
  | nil => cases ht
  | cons u ts ih =>
    obtain rfl | ht := List.mem_cons.mp ht
    · exact hf.2.1
    · exact ih hf.2.2 ht

theorem Follow.before (hf : Follow l' l (pre ++ t :: post)) :
    t.before = WriteBack.listAfter l pre := by
  induction pre generalizing l with
  | nil => exact hf.1
  | cons u pre ih => rw [listAfter_cons, ih hf.2.2]

theorem listAfter_concat (l : List (Option Ptr)) (ts : List Turn) (t : Turn) :
    listAfter l (ts ++ [t]) = t.written := by
  unfold listAfter
  rw [List.getLast?_concat]
  rfl

theorem Follow.reached (hf : Follow l' l ts) (hresp : ∀ t ∈ ts, t.Respects) (hp : pre <+: ts) :
    WriteBack.listAfter l pre = pre.foldl (fun l t => t.ideal l) l := by
  induction pre using List.reverseRecOn with
  | nil => rfl
  | append_singleton pre t ih =>
    obtain ⟨post, rfl⟩ := hp
    rw [List.append_assoc] at hf hresp ih
    have ht := hresp t (by simp)
    have hw := hf.mem (t := t) (by simp)
    rw [listAfter_concat, List.foldl_append, ← ih (List.prefix_append ..), ← hf.before]
    exact (hw.ideal_iff.mpr ht).1

theorem Follow.respects (hf : Follow l' l ts)
    (hr : ∀ pre, pre <+: ts → WriteBack.listAfter l pre = pre.foldl (fun l t => t.ideal l) l)
    (hin : ∀ t ∈ ts, t.row.isSome → t.index < t.after.length) (ht : t ∈ ts) : t.Respects := by
  obtain ⟨pre, post, rfl⟩ := List.append_of_mem ht
  have hpre := hr pre (List.prefix_append ..)
  have hthis := hr (pre ++ [t]) ⟨post, by simp⟩
  rw [listAfter_concat, List.foldl_append, ← hpre, ← hf.before] at hthis
  exact (hf.mem ht).ideal_iff.mp ⟨hthis, hin t ht⟩

theorem Finished.turned {H : Host} (r : Finished H) :
    (WriteBack.turns H r.waits r.loop r.depth 0 .ok r.line r.state).out =
      some ((r.status, r.turns), r.line', r.final) := by
  have hr := r.ran
  rw [← fst_turns] at hr
  unfold Finished.turns
  generalize hm : WriteBack.turns H r.waits r.loop r.depth 0 .ok r.line r.state = m at hr
  obtain ⟨_ | ⟨⟨st, ts⟩, l', t⟩, log⟩ := m
  · cases (congrArg Run.out (Prog.bind_none _ hm)).symm.trans hr
  · cases (congrArg Run.out (Prog.bind_some _ hm)).symm.trans hr
    rfl

theorem exists_finished {H : Host} {waits : Bool} {f : ForLoop} {n l l' : Nat} {s t : State}
    {st : Status} {ts : List Turn}
    (hr : (WriteBack.turns H waits f n 0 .ok l s).out = some ((st, ts), l', t)) :
    ∃ r : Finished H, r.turns = ts := by
  have hran : ((evals H waits n).forLoop f 0 .ok l s).out = some (st, l', t) := by
    rw [← fst_turns]
    generalize hm : WriteBack.turns H waits f n 0 .ok l s = m at hr
    obtain ⟨out, log⟩ := m
    cases hr
    exact congrArg Run.out (Prog.bind_some _ hm)
  refine ⟨⟨waits, f, n, l, s, st, l', t, hran⟩, ?_⟩
  rw [Finished.turns, hr]
  rfl

theorem Finished.follow {H : Host} (r : Finished H) :
    Follow (els r.final.heap r.loop.list) (els r.state.heap r.loop.list) r.turns :=
  turns_follow r.depth 0 .ok r.state r.line _ r.turned fun _ _ => trivial

theorem Finished.Kept.respects {H : Host} {r : Finished H} (hk : r.Kept) :
    ∀ t ∈ r.turns, t.Respects :=
  fun _ ht => r.follow.respects hk.reached hk.inside ht

/-- The loop does not undo its body as long as the body leaves the place of its row alone. -/
theorem kept_iff_respects (H : Host) (r : Finished H) :
    r.Kept ↔ ∀ t ∈ r.turns, t.Respects := by
  refine ⟨Finished.Kept.respects, fun hresp => ?_⟩
  have hreached : ∀ ts, ts <+: r.turns → listAfter (els r.state.heap r.loop.list) ts =
      ts.foldl (fun l t => t.ideal l) (els r.state.heap r.loop.list) :=
    fun _ hp => r.follow.reached hresp hp
  refine ⟨hreached, ?_, fun t ht => ?_⟩
  · rw [← hreached _ List.prefix_rfl, r.follow.listAfter]
  · exact ((r.follow.mem ht).ideal_iff.mpr (hresp t ht)).2

end Keeping

/-- The list `l` of one number, over which a `for` runs. -/
def oneNumber : State where
  heap := [.dict [(text "l", some (.obj 1))] none, .list [some (.const (.int 1))] none,
    .dict [] none]
  universals := 0
  globals := 0
  stack := [⟨some 0, .locals⟩]
  globalFrames := 0
  md := text "p"

/-- The body assigns to `l[0]`. -/
def assignFirst : ForLoop where
  line := 1
  iter := text "x"
  body := some (.pub 1 [.expr 1 (.assignment 1
    (.vecref 1 (.varref 1 (text "l")) (.constant (.int 0))) (.constant (.int 5)))])
  list := 1
  locals := 2

def number : Option Ptr → Option Int
  | some (.node (.constant (.int i))) => some i.toInt
  | _ => none

/-- What is at the place of the row: at first, after the body, and the row. -/
def Turn.numbers (t : Turn) : Option (Option Int) × Option (Option Int) × Option Int :=
  ((t.before[t.index]?).map number, (t.after[t.index]?).map number, number t.row)

/-- What the body assigned to `l[0]` is lost. -/
theorem not_kept_assignFirst : ¬ ∀ (H : Host) (r : Finished H), r.Kept := by
  intro hall
  have hnum : (turns .plain false assignFirst 6 0 .ok 1 oneNumber).out.map
      (fun r => r.1.2.map Turn.numbers) = some [(some (some 1), some (some 5), some 1)] := by
    decide +kernel
  obtain ⟨⟨⟨st, ts⟩, l', t⟩, hr, hts⟩ := Option.map_eq_some_iff.mp hnum
  obtain ⟨u, us, hu, hus, -⟩ := List.map_eq_cons_iff.mp hts
  obtain ⟨r, rfl⟩ := exists_finished hr
  have hresp := (hall .plain r).respects u (List.mem_of_mem_head? (congrArg List.head? hu))
  have hb : (u.before[u.index]?).map number = some (some 1) := congrArg (·.1) hus
  have ha : (u.after[u.index]?).map number = some (some 5) := congrArg (·.2.1) hus
  have hx : number u.row = some 1 := congrArg (·.2.2) hus
  cases hrow : u.row with
  | none => cases (congrArg number hrow).symm.trans hx
  | some x =>
    -- neither what was there, nor the value of the row
    obtain ⟨h, -⟩ | h := hresp x hrow
    · rw [h, hb] at ha
      cases ha
    · rw [h, Option.map_some, ← hrow, hx] at ha
      cases ha

end WriteBack

end Okws.Pub3
