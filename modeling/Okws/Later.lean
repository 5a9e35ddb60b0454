import Okws.Copies
import Okws.Eval
import Okws.Lib.Depth

namespace Okws.Pub3

open Zbuf Lib Filter

namespace Reeval

/-- What `is_static` finds at an object: the answer, or where to ask. -/
inductive Ask
  | known (b : Bool)
  | parts (xs : List (Option Ptr))
  | target (p : Ptr)

def ask : Obj → Ask
  | .list _ (some b) | .dict _ (some b) => .known b
  | .list els none => .parts els
  | .dict tab none => .parts (tab.map (·.2))
  | .cow c o => match c.orElse fun _ => o with
    | none => .known false
    | some p => .target p
  | _ => .known false

/-- The answer of `is_static` is remembered. -/
def remember (b : Bool) : Obj → Obj
  | .list els _ => .list els (some b)
  | .dict tab _ => .dict tab (some b)
  | o => o

/-- The answer of `is_static`: what a list or a dictionary remembers, and otherwise whether all that
it holds is static. -/
inductive Static (h : Heap) : Ptr → Bool → Prop
  | node (x : Expr) : Static h (.node x) x.isStatic
  | known {a b} : h[a]?.map ask = some (.known b) → Static h (.obj a) b
  | all {a xs} : h[a]?.map ask = some (.parts xs) → (∀ p, some p ∈ xs → Static h p true) →
    Static h (.obj a) true
  | first {a pre p post} : h[a]?.map ask = some (.parts (pre ++ some p :: post)) →
    (∀ q, some q ∈ pre → Static h q true) → Static h p false → Static h (.obj a) false
  | target {a p b} : h[a]?.map ask = some (.target p) → Static h p b → Static h (.obj a) b

/-- The heap later on: what was on it is there, but lists and dictionaries may remember what they
were asked. -/
def Later (h h' : Heap) : Prop := ∀ a o, h[a]? = some o → ∃ o', h'[a]? = some o' ∧
  (o' = o ∨ ∃ xs b, ask o = .parts xs ∧ Static h (.obj a) b ∧ o' = remember b o)

/-- From `h₁`, which is later than `h`, on: what was made since stays as it is. -/
structure Onward (h h₁ h₂ : Heap) : Prop where
  later : Later h h₂
  made : ∀ a o, h.length ≤ a → h₁[a]? = some o → h₂[a]? = some o

/-- What an object holds: the elements of a list, the values of a dictionary, and what a copy on
write points to. -/
def parts : Obj → List (Option Ptr)
  | .list els _ => els
  | .dict tab _ => tab.map (·.2)
  | .cow c o => [c.orElse fun _ => o]
  | _ => []

/-- The pointer is to an object or to a static literal. -/
def Ptr.Val (n : Nat) (p : Ptr) : Prop := p.In n ∧ ∀ x, p = .node x → x.isStatic = true

/-- The values on the heap hold values, and a copy on write is never made of another one. -/
structure Valued (h : Heap) : Prop where
  part : ∀ (a : Nat) o p, h[a]? = some o → some p ∈ parts o → Ptr.Val h.length p
  cow : ∀ (a : Nat) p, h[a]?.map ask = some (.target p) → h.constPtr p = some p

section Asking

variable {h h₁ h₂ h₃ : Heap} {p : Ptr} {b b' : Bool}

theorem Static.unique (hs : Static h p b) (hs' : Static h p b') : b = b' := by
  induction hs generalizing b' with
  | node x =>
    cases hs'
    rfl
  | known ha =>
    cases hs' with
    | known ha' =>
      cases ha.symm.trans ha'
      rfl
    | all ha' => cases ha.symm.trans ha'
    | first ha' => cases ha.symm.trans ha'
    | target ha' => cases ha.symm.trans ha'
  | all ha _ ih =>
    cases hs' with
    | known ha' => cases ha.symm.trans ha'
    | all => rfl
    | first ha' _ hp =>
      cases ha.symm.trans ha'
      exact ih _ (by simp) hp
    | target ha' => cases ha.symm.trans ha'
  | first ha _ hp ihpre ih =>
    cases hs' with
    | known ha' => cases ha.symm.trans ha'
    | all ha' hall =>
      cases ha.symm.trans ha'
      exact ih (hall _ (by simp))
    | first => rfl
    | target ha' => cases ha.symm.trans ha'
  | target ha _ ih =>
    cases hs' with
    | known ha' => cases ha.symm.trans ha'
    | all ha' => cases ha.symm.trans ha'
    | first ha' => cases ha.symm.trans ha'
    | target ha' hp =>
      cases ha.symm.trans ha'
      exact ih hp

theorem ask_remember {o : Obj} {xs : List (Option Ptr)} (ho : ask o = .parts xs) (b : Bool) :
    ask (remember b o) = .known b := by
  cases o with
  | list els st => rfl
  | dict tab st => rfl
  | cow c o =>
    unfold ask at ho
    dsimp only at ho
    split at ho <;> cases ho
  | _ => cases ho

theorem Later.refl (h : Heap) : Later h h := fun _ o ha => ⟨o, ha, .inl rfl⟩

theorem Onward.refl (hl : Later h h₁) : Onward h h₁ h₁ := ⟨hl, fun _ _ _ ha => ha⟩

theorem Onward.trans (ho : Onward h h₁ h₂) (ho' : Onward h h₂ h₃) : Onward h h₁ h₃ :=
  ⟨ho'.later, fun a o ha hm => ho'.made a o ha (ho.made a o ha hm)⟩

theorem Onward.alloc (hl : Later h h₁) (o : Obj) : Onward h h₁ (h₁ ++ [o]) := by
  refine ⟨fun a o' ha => ?_, fun a o' _ ha => Heap.getElem?_append_of_some ha _⟩
  obtain ⟨o'', ha', ho⟩ := hl a o' ha
  exact ⟨o'', Heap.getElem?_append_of_some ha' _, ho⟩

theorem Later.length_le (hl : Later h h₁) : h.length ≤ h₁.length := by
  by_contra hlt
  obtain ⟨o, hm, -⟩ := hl h₁.length h[h₁.length] (List.getElem?_eq_getElem (by omega))
  have := (List.getElem?_eq_some_iff.mp hm).1
  omega

/-- The elements of which `is_static` asks. -/
def allStatic (n : Nat) : List (Option Ptr) → Mem Bool := List.allM fun
  | none => pure true
  | some p => isStatic n p

theorem isStatic_obj (n a : Nat) : isStatic (n + 1) (.obj a) h = h[a]?.bind fun o =>
    match ask o with
    | .known b => some (b, h)
    | .target p => isStatic n p h
    | .parts xs => (allStatic n xs h).map fun r => (r.1, r.2.set a (remember r.1 o)) := by
  have hload : Mem.load a h = h[a]?.map (·, h) := rfl
  conv_lhs => unfold isStatic
  dsimp only
  simp only [Bind.bind, StateT.bind, hload]
  cases h[a]? with
  | none => rfl
  | some o =>
    simp only [Option.map_some, Option.bind_some]
    cases o with
    | list els st =>
      cases st with
      | none =>
        change (allStatic n els h).bind _ = _
        simp only [ask]
        cases allStatic n els h <;> rfl
      | some b => rfl
    | dict tab st =>
      cases st with
      | none =>
        change (allStatic n (tab.map (·.2)) h).bind _ = _
        simp only [ask]
        cases allStatic n (tab.map (·.2)) h <;> rfl
      | some b => rfl
    | cow c o =>
      simp only [ask]
      cases c.orElse fun _ => o <;> rfl
    | _ => rfl

theorem allStatic_cons (n : Nat) (p : Ptr) (xs : List (Option Ptr)) :
    allStatic n (some p :: xs) h = (isStatic n p h).bind fun r =>
      if r.1 then allStatic n xs r.2 else some r := by
  unfold allStatic
  rw [List.allM_cons]
  simp only [Bind.bind, StateT.bind]
  cases isStatic n p h with
  | none => rfl
  | some r =>
    obtain ⟨_ | _, h'⟩ := r <;> rfl

theorem allStatic_none (n : Nat) (xs : List (Option Ptr)) :
    allStatic n (none :: xs) h = allStatic n xs h := by
  unfold allStatic
  rw [List.allM_cons]
  rfl

theorem Onward.remember {a : Nat} {o : Obj} {xs : List (Option Ptr)} (ho : Onward h h₁ h₂)
    (ha : h[a]? = some o) (hx : ask o = .parts xs) (hs : Static h (.obj a) b) :
    Onward h h₁ (h₂.set a (remember b o)) := by
  have hlt := (List.getElem?_eq_some_iff.mp ha).1
  refine ⟨fun c o' hc => ?_, fun c o' hc hm => ?_⟩
  · by_cases hac : a = c
    · subst hac
      cases ha.symm.trans hc
      have hlt' := ho.later.length_le
      exact ⟨_, List.getElem?_set_self (by omega), .inr ⟨xs, b, hx, hs, rfl⟩⟩
    · obtain ⟨o'', hm, hmem⟩ := ho.later c o' hc
      exact ⟨o'', (List.getElem?_set_ne hac).trans hm, hmem⟩
  · rw [List.getElem?_set_ne (by omega)]
    exact ho.made c o' hc hm

theorem Later.asked {a : Nat} {o : Obj} (hl : Later h h₁) (ha : h[a]? = some o) :
    ∃ o', h₁[a]? = some o' ∧ (o' = o ∨ ∃ b, Static h (.obj a) b ∧ ask o' = .known b) := by
  obtain ⟨o', hm, rfl | ⟨xs, b, hx, hs, rfl⟩⟩ := hl a o ha
  · exact ⟨o', hm, .inl rfl⟩
  · exact ⟨_, hm, .inr ⟨b, hs, ask_remember hx b⟩⟩

theorem part_of_ask {o : Obj} {xs : List (Option Ptr)} (hx : ask o = .parts xs) : parts o = xs := by
  cases o with
  | list els st => cases st <;> cases hx; rfl
  | dict tab st => cases st <;> cases hx; rfl
  | cow c o =>
    unfold ask at hx
    dsimp only at hx
    split at hx <;> cases hx
  | _ => cases hx

theorem part_of_target {o : Obj} (hx : ask o = .target p) : some p ∈ parts o := by
  cases o with
  | list els st => cases st <;> cases hx
  | dict tab st => cases st <;> cases hx
  | cow c o =>
    unfold ask at hx
    dsimp only at hx
    split at hx
    · cases hx
    · next hp =>
      cases hx
      exact List.mem_singleton.mpr hp.symm
  | _ => cases hx

theorem allStatic_static {n : Nat} (ih : ∀ {p : Ptr} {h₁ h₂ : Heap} {b : Bool}, p.In h.length →
    Later h h₁ → isStatic n p h₁ = some (b, h₂) → Static h p b ∧ Onward h h₁ h₂)
    {xs : List (Option Ptr)} (hxs : ∀ p, some p ∈ xs → p.In h.length) (hl : Later h h₁)
    (hs : allStatic n xs h₁ = some (b, h₂)) : Onward h h₁ h₂ ∧
      (b = true ∧ (∀ p, some p ∈ xs → Static h p true) ∨ b = false ∧ ∃ pre p post,
        xs = pre ++ some p :: post ∧ (∀ q, some q ∈ pre → Static h q true) ∧
          Static h p false) := by
  induction xs generalizing h₁ with
  | nil =>
    cases hs
    exact ⟨.refl hl, .inl ⟨rfl, nofun⟩⟩
  | cons x xs ihx =>
    have hxs' : ∀ p, some p ∈ xs → p.In h.length := fun p hp => hxs p (List.mem_cons_of_mem _ hp)
    cases x with
    | none =>
      rw [allStatic_none] at hs
      obtain ⟨ho, ⟨hb, hall⟩ | ⟨hb, pre, p, post, rfl, hpre, hp⟩⟩ := ihx hxs' hl hs
      · refine ⟨ho, .inl ⟨hb, fun p hp => hall p ?_⟩⟩
        exact (List.mem_cons.mp hp).resolve_left nofun
      · refine ⟨ho, .inr ⟨hb, none :: pre, p, post, rfl, fun q hq => hpre q ?_, hp⟩⟩
        exact (List.mem_cons.mp hq).resolve_left nofun
    | some q =>
      rw [allStatic_cons] at hs
      obtain ⟨⟨b', h'⟩, hq, hs⟩ := Option.bind_eq_some_iff.mp hs
      obtain ⟨hst, ho⟩ := ih (hxs q List.mem_cons_self) hl hq
      cases b' with
      | false =>
        cases hs
        exact ⟨ho, .inr ⟨rfl, [], q, xs, rfl, nofun, hst⟩⟩
      | true =>
        obtain ⟨ho', hans⟩ := ihx hxs' ho.later hs
        refine ⟨ho.trans ho', ?_⟩
        obtain ⟨hb, hall⟩ | ⟨hb, pre, p, post, rfl, hpre, hp⟩ := hans
        · refine .inl ⟨hb, fun p hp => ?_⟩
          obtain hp | hp := List.mem_cons.mp hp
          · cases hp
            exact hst
          · exact hall p hp
        · refine .inr ⟨hb, some q :: pre, p, post, rfl, fun r hr => ?_, hp⟩
          obtain hr | hr := List.mem_cons.mp hr
          · cases hr
            exact hst
          · exact hpre r hr

theorem isStatic_static (hv : Valued h) {n : Nat} (hp : p.In h.length) (hl : Later h h₁)
    (hs : isStatic n p h₁ = some (b, h₂)) : Static h p b ∧ Onward h h₁ h₂ := by
  induction n generalizing p h₁ b h₂ with
  | zero =>
    cases p with
    | node x =>
      cases hs
      exact ⟨.node x, .refl hl⟩
    | obj a => cases hs
  | succ n ih =>
    cases p with
    | node x =>
      cases hs
      exact ⟨.node x, .refl hl⟩
    | obj a =>
      obtain ⟨o, ha⟩ : ∃ o, h[a]? = some o := ⟨_, List.getElem?_eq_getElem (hp a rfl)⟩
      have hask : h[a]?.map ask = some (ask o) := by rw [ha, Option.map_some]
      obtain ⟨o', hm, ho⟩ := hl.asked ha
      rw [isStatic_obj, hm, Option.bind_some] at hs
      obtain rfl | ⟨b', hb', ho'⟩ := ho
      · cases hk : ask o' with
        | known b' =>
          rw [hk] at hs hask
          cases hs
          exact ⟨.known hask, .refl hl⟩
        | target q =>
          rw [hk] at hs hask
          obtain ⟨hq, ho⟩ := ih (hv.part a o' q ha (part_of_target hk)).1 hl hs
          exact ⟨.target hask hq, ho⟩
        | parts xs =>
          rw [hk] at hs hask
          obtain ⟨⟨b', h'⟩, hasked, hs⟩ := Option.map_eq_some_iff.mp hs
          cases hs
          have hxs : ∀ q, some q ∈ xs → q.In h.length := fun q hq =>
            (hv.part a o' q ha (part_of_ask hk ▸ hq)).1
          obtain ⟨ho, hans⟩ := allStatic_static ih hxs hl hasked
          have hst : Static h (.obj a) b' := by
            obtain ⟨rfl, hall⟩ | ⟨rfl, pre, q, post, rfl, hpre, hq⟩ := hans
            · exact .all hask hall
            · exact .first hask hpre hq
          exact ⟨hst, ho.remember ha hk hst⟩
      · rw [ho'] at hs
        cases hs
        exact ⟨hb', .refl hl⟩

theorem eventually_parts {P : Nat → Ptr → Prop} {xs : List (Option Ptr)}
    (h : ∀ p, some p ∈ xs → ∀ᶠ n in atTop, P n p) :
    ∀ᶠ n in atTop, ∀ p, some p ∈ xs → P n p := by
  have hall : ∀ᶠ n in atTop, ∀ p ∈ xs.filterMap id, P n p :=
    eventually_mem fun p hp => h p (by simpa using hp)
  exact hall.mono fun n hn p hp => hn p (by simpa using hp)

/-- At this depth `is_static` comes to an answer, whatever was asked before. -/
def Answers (h : Heap) (n : Nat) (p : Ptr) : Prop :=
  ∀ h₁, Later h h₁ → (isStatic n p h₁).isSome

theorem Answers.answer (hv : Valued h) {n : Nat} (ha : Answers h n p) (hp : p.In h.length)
    (hs : Static h p b) (hl : Later h h₁) :
    ∃ h₂, isStatic n p h₁ = some (b, h₂) ∧ Onward h h₁ h₂ := by
  obtain ⟨⟨b', h₂⟩, hr⟩ := Option.isSome_iff_exists.mp (ha h₁ hl)
  obtain ⟨hs', ho⟩ := isStatic_static hv hp hl hr
  cases hs.unique hs'
  exact ⟨h₂, hr, ho⟩

theorem allStatic_isSome (hv : Valued h) {n : Nat} {pre post : List (Option Ptr)}
    (hin : ∀ p, some p ∈ pre ++ post → p.In h.length)
    (hpre : ∀ p, some p ∈ pre → Static h p true ∧ Answers h n p)
    (hpost : ∀ p, post.head? = some (some p) → Static h p false ∧ Answers h n p)
    (hnone : post.head? ≠ some none) (hl : Later h h₁) :
    (allStatic n (pre ++ post) h₁).isSome := by
  induction pre generalizing h₁ with
  | nil =>
    cases post with
    | nil => rfl
    | cons x post =>
      cases x with
      | none => exact absurd rfl hnone
      | some p =>
        obtain ⟨hs, ha⟩ := hpost p rfl
        obtain ⟨h₂, hr, -⟩ := ha.answer hv (hin p (by simp)) hs hl
        rw [List.nil_append, allStatic_cons, hr]
        rfl
  | cons x pre ih =>
    have ih := fun h₁ => @ih h₁ (fun p hp => hin p (List.mem_cons_of_mem _ hp))
      fun p hp => hpre p (List.mem_cons_of_mem _ hp)
    cases x with
    | none =>
      rw [List.cons_append, allStatic_none]
      exact ih h₁ hl
    | some p =>
      obtain ⟨hs, ha⟩ := hpre p (by simp)
      obtain ⟨h₂, hr, ho⟩ := ha.answer hv (hin p (by simp)) hs hl
      rw [List.cons_append, allStatic_cons, hr]
      exact ih h₂ ho.later

theorem answers_of_ask {a : Nat} {n : Nat} (ha : h[a]?.map ask = some (.known b)) :
    Answers h (n + 1) (.obj a) := by
  intro h₁ hl
  obtain ⟨o, ho, hk⟩ := Option.map_eq_some_iff.mp ha
  obtain ⟨o', hm, hor⟩ := hl.asked ho
  obtain ⟨b', hk'⟩ : ∃ b', ask o' = .known b' := by
    obtain rfl | ⟨b', -, hk'⟩ := hor
    · exact ⟨b, hk⟩
    · exact ⟨b', hk'⟩
  rw [isStatic_obj, hm, Option.bind_some, hk']
  rfl

theorem answers_of_parts {a : Nat} {n : Nat} {xs : List (Option Ptr)}
    (ha : h[a]?.map ask = some (.parts xs))
    (hxs : ∀ h₁, Later h h₁ → (allStatic n xs h₁).isSome) : Answers h (n + 1) (.obj a) := by
  intro h₁ hl
  obtain ⟨o, ho, hk⟩ := Option.map_eq_some_iff.mp ha
  obtain ⟨o', hm, rfl | ⟨b', -, hk'⟩⟩ := hl.asked ho
  · rw [isStatic_obj, hm, Option.bind_some, hk]
    exact Option.isSome_map.trans (hxs h₁ hl)
  · rw [isStatic_obj, hm, Option.bind_some, hk']
    rfl

theorem Static.eventually (hv : Valued h) (hs : Static h p b) : ∀ᶠ n in atTop, Answers h n p := by
  have hin : ∀ {a : Nat} {xs : List (Option Ptr)}, h[a]?.map ask = some (.parts xs) →
      ∀ p, some p ∈ xs → p.In h.length := by
    intro a xs ha p hp
    obtain ⟨o, ho, hk⟩ := Option.map_eq_some_iff.mp ha
    exact (hv.part a o p ho (part_of_ask hk ▸ hp)).1
  induction hs with
  | node x => exact .of_forall fun n h₁ _ => by cases n <;> rfl
  | known ha => exact eventually_succ (.of_forall fun n => answers_of_ask ha)
  | @all a xs ha hall ih =>
    refine eventually_succ ?_
    filter_upwards [eventually_parts ih] with n hn
    refine answers_of_parts ha fun h₁ hl => ?_
    have hr : (allStatic n (xs ++ []) h₁).isSome := allStatic_isSome hv (by simpa using hin ha)
      (fun p hp => ⟨hall p hp, hn p hp⟩) nofun nofun hl
    rwa [List.append_nil] at hr
  | @first a pre p post ha hpre hp ihpre ih =>
    refine eventually_succ ?_
    filter_upwards [eventually_parts ihpre, ih] with n hn hn'
    refine answers_of_parts ha fun h₁ hl => ?_
    refine allStatic_isSome hv (hin ha) (fun q hq => ⟨hpre q hq, hn q hq⟩) ?_ nofun hl
    rintro q ⟨⟩
    exact ⟨hp, hn'⟩
  | @target a p b ha hp ih =>
    refine eventually_succ ?_
    filter_upwards [ih] with n hn h₁ hl
    obtain ⟨o, ho, hk⟩ := Option.map_eq_some_iff.mp ha
    obtain ⟨o', hm, rfl | ⟨b', -, hk'⟩⟩ := hl.asked ho
    · rw [isStatic_obj, hm, Option.bind_some, hk]
      exact hn h₁ hl
    · rw [isStatic_obj, hm, Option.bind_some, hk']
      rfl

end Asking

end Reeval

end Okws.Pub3
