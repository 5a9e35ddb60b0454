import Mathlib.Data.List.Dedup
import Mathlib.Data.List.Sublists
import Mathlib.Data.List.ProdSigma

/-! Sorting by a comparison function that the caller brings, and that may do more than compare: a
sorting algorithm is what it asks and what it makes of the answers. -/

universe u v

namespace Okws.Lib

variable {β : Type u} {W : Type v}

/-- The elements of `l` can be put in the order `le`. -/
structure TotalOn (le : β → β → Prop) (l : List β) : Prop where
  trans : ∀ a ∈ l, ∀ b ∈ l, ∀ c ∈ l, le a b → le b c → le a c
  total : ∀ a ∈ l, ∀ b ∈ l, le a b ∨ le b a

theorem TotalOn.subset {le : β → β → Prop} {l l' : List β} (h : TotalOn le l) (hl : l' ⊆ l) :
    TotalOn le l' :=
  ⟨fun a ha b hb c hc => h.trans a (hl ha) b (hl hb) c (hl hc),
    fun a ha b hb => h.total a (hl ha) b (hl hb)⟩

/-- An answer tells by its sign where `a` and `b` stand in the order. -/
def Tells (le : β → β → Prop) (a b : β) (r : Int) : Prop := (r ≤ 0 ↔ le a b) ∧ (0 ≤ r ↔ le b a)

/-- The answers of `cmp` on `l` are those of an order. -/
structure Consistent (cmp : β → β → Int) (l : List β) : Prop where
  trans : ∀ a ∈ l, ∀ b ∈ l, ∀ c ∈ l, cmp a b ≤ 0 → cmp b c ≤ 0 → cmp a c ≤ 0
  sign : ∀ a ∈ l, ∀ b ∈ l, 0 ≤ cmp a b ↔ cmp b a ≤ 0

section Consistent

variable {cmp : β → β → Int} {l : List β}

theorem Consistent.of_tells {le : β → β → Prop} (hle : TotalOn le l)
    (h : ∀ a ∈ l, ∀ b ∈ l, Tells le a b (cmp a b)) : Consistent cmp l where
  trans a ha b hb c hc hab hbc := by
    have hac := hle.trans a ha b hb c hc ((h a ha b hb).1.1 hab) ((h b hb c hc).1.1 hbc)
    exact (h a ha c hc).1.2 hac
  sign a ha b hb := (h a ha b hb).2.trans (h b hb a ha).1.symm

theorem Consistent.totalOn (h : Consistent cmp l) : TotalOn (fun a b => cmp a b ≤ 0) l where
  trans := h.trans
  total a ha b hb := by
    rcases Int.le_total (cmp a b) 0 with hab | hab
    · exact .inl hab
    · exact .inr ((h.sign a ha b hb).1 hab)

theorem Consistent.tells (h : Consistent cmp l) (a : β) (ha : a ∈ l) (b : β) (hb : b ∈ l) :
    Tells (fun a b => cmp a b ≤ 0) a b (cmp a b) :=
  ⟨Iff.rfl, h.sign a ha b hb⟩

theorem Consistent.subset {l' : List β} (h : Consistent cmp l) (hl : l' ⊆ l) :
    Consistent cmp l' where
  trans a ha b hb c hc := h.trans a (hl ha) b (hl hb) c (hl hc)
  sign a ha b hb := h.sign a (hl ha) b (hl hb)

theorem consistent_map {γ : Type*} (f : γ → β) {l : List γ} :
    Consistent (fun a b => cmp (f a) (f b)) l ↔ Consistent cmp (l.map f) := by
  constructor
  · intro h
    exact {
      trans := List.forall_mem_map.2 fun a ha => List.forall_mem_map.2 fun b hb =>
        List.forall_mem_map.2 fun c hc => h.trans a ha b hb c hc
      sign := List.forall_mem_map.2 fun a ha => List.forall_mem_map.2 fun b hb => h.sign a ha b hb }
  · intro h
    have hmem (a) (ha : a ∈ l) : f a ∈ l.map f := List.mem_map_of_mem ha
    exact {
      trans := fun a ha b hb c hc => h.trans _ (hmem a ha) _ (hmem b hb) _ (hmem c hc)
      sign := fun a ha b hb => h.sign _ (hmem a ha) _ (hmem b hb) }

end Consistent

/-- An algorithm that sorts asks for two elements to be compared, and goes on with the answer. -/
inductive Sorter (β : Type u)
  | done (l : List β)
  | ask (a b : β) (next : Int → Sorter β)

namespace Sorter

/-- The algorithm with a comparison that works on a state, and may fail. -/
def run (cmp : β → β → W → Option (Int × W)) : Sorter β → W → Option (List β × W)
  | done l, w => some (l, w)
  | ask a b next, w => (cmp a b w).bind fun x => (next x.1).run cmp x.2

/-- The algorithm with a comparison that is a function. -/
def eval (cmp : β → β → Int) : Sorter β → List β
  | done l => l
  | ask a b next => (next (cmp a b)).eval cmp

/-- What may come out of the algorithm when the answers satisfy `ok`. -/
inductive Result (ok : β → β → Int → Prop) : Sorter β → List β → Prop
  | done {l} : Result ok (done l) l
  | ask {a b r next out} : ok a b r → Result ok (next r) out → Result ok (ask a b next) out

/-- It only asks about elements of `l`. -/
def Asks (l : List β) : Sorter β → Prop
  | done _ => True
  | ask a b next => a ∈ l ∧ b ∈ l ∧ ∀ r, (next r).Asks l

variable {ok : β → β → Int → Prop} {l out : List β} {s : Sorter β}

/-- The rule for a comparison that keeps `I` and, where it holds, gives answers that satisfy
`ok`. -/
theorem run_result {I : W → Prop} {cmp : β → β → W → Option (Int × W)} (hs : s.Asks l)
    (hcmp : ∀ a ∈ l, ∀ b ∈ l, ∀ w, I w → ∃ r w', cmp a b w = some (r, w') ∧ ok a b r ∧ I w')
    {w : W} (hw : I w) : ∃ out w', s.run cmp w = some (out, w') ∧ Result ok s out ∧ I w' := by
  induction s generalizing w with
  | done out => exact ⟨out, w, rfl, .done, hw⟩
  | ask a b next ih =>
    obtain ⟨ha, hb, hnext⟩ := hs
    obtain ⟨r, w₁, hr, hok, hw₁⟩ := hcmp a ha b hb w hw
    obtain ⟨out, w', hout, hres, hw'⟩ := ih r (hnext r) hw₁
    refine ⟨out, w', ?_, .ask hok hres, hw'⟩
    rw [run, hr]
    exact hout

theorem eval_result {cmp : β → β → Int} (hs : s.Asks l)
    (hcmp : ∀ a ∈ l, ∀ b ∈ l, ok a b (cmp a b)) : Result ok s (s.eval cmp) := by
  induction s with
  | done out => exact .done
  | ask a b next ih => exact .ask (hcmp a hs.1 b hs.2.1) (ih _ (hs.2.2 _))

end Sorter

/-- An algorithm that sorts whenever the answers are those of an order. -/
structure Qsort (β : Type u) where
  sorter : List β → Sorter β
  asks : ∀ l, (sorter l).Asks l
  sorts : ∀ l le, TotalOn le l → ∀ out, (sorter l).Result (Tells le) out →
    out.Perm l ∧ out.Pairwise le

namespace Qsort

variable (q : Qsort β) {cmp : β → β → Int} {le : β → β → Prop} {l l' : List β}

def sort (cmp : β → β → Int) (l : List β) : List β := (q.sorter l).eval cmp

theorem sort_sorts (hle : TotalOn le l) (h : ∀ a ∈ l, ∀ b ∈ l, Tells le a b (cmp a b)) :
    (q.sort cmp l).Perm l ∧ (q.sort cmp l).Pairwise le :=
  q.sorts l le hle _ (Sorter.eval_result (q.asks l) h)

theorem sort_eq (h : Consistent cmp l) (hne : ∀ a ∈ l, ∀ b ∈ l, cmp a b = 0 → a = b)
    (hp : l'.Perm l) : q.sort cmp l' = q.sort cmp l := by
  have h' := h.subset hp.subset
  obtain ⟨hp₁, hs₁⟩ := q.sort_sorts h.totalOn h.tells
  obtain ⟨hp₂, hs₂⟩ := q.sort_sorts h'.totalOn h'.tells
  refine List.Perm.eq_of_pairwise (fun a b ha hb hab hba => ?_) hs₂ hs₁
    (hp₂.trans (hp.trans hp₁.symm))
  have ha' := hp.subset (hp₂.subset ha)
  have hb' := hp₁.subset hb
  exact hne a ha' b hb' (Int.le_antisymm hab ((h.sign a ha' b hb').2 hba))

theorem sort_perm (h : Consistent cmp l) : (q.sort cmp l).Perm l :=
  (q.sort_sorts h.totalOn h.tells).1

end Qsort

/-! An algorithm that has every pair compared before it does anything, and that leaves the list as
it is where the answers contradict each other. -/

section Gather

variable [DecidableEq β]

/-- It asks all of `qs`, and goes on with what it was told. -/
def gather (k : (β → β → Int) → List β) :
    List (β × β) → (β → β → Int) → Sorter β
  | [], f => .done (k f)
  | q :: qs, f => .ask q.1 q.2 fun r => gather k qs fun a b => if (a, b) = q then r else f a b

variable {k : (β → β → Int) → List β} {qs : List (β × β)} {f : β → β → Int} {l out : List β}

theorem gather_asks (h : ∀ q ∈ qs, q.1 ∈ l ∧ q.2 ∈ l) : (gather k qs f).Asks l := by
  induction qs generalizing f with
  | nil => trivial
  | cons q qs ih =>
    have hq := h q (.head _)
    exact ⟨hq.1, hq.2, fun r => ih fun q hq => h q (.tail _ hq)⟩

theorem gather_result {ok : β → β → Int → Prop} (h : (gather k qs f).Result ok out)
    (hqs : qs.Nodup) : ∃ g, out = k g ∧ (∀ a b, (a, b) ∈ qs → ok a b (g a b)) ∧
      ∀ a b, (a, b) ∉ qs → g a b = f a b := by
  induction qs generalizing f with
  | nil =>
    cases h
    exact ⟨f, rfl, nofun, fun _ _ _ => rfl⟩
  | cons q qs ih =>
    cases h with
    | @ask _ _ r _ _ hr hout =>
      obtain ⟨hq, hqs⟩ := List.nodup_cons.mp hqs
      obtain ⟨g, hg, hin, hnot⟩ := ih hout hqs
      refine ⟨g, hg, fun a b hab => ?_, fun a b hab => ?_⟩
      · rcases List.mem_cons.mp hab with rfl | hab
        · rw [hnot a b hq, if_pos rfl]
          exact hr
        · exact hin a b hab
      · rw [hnot a b fun h => hab (.tail _ h), if_neg fun h => hab (List.mem_cons.mpr (.inl h))]

theorem gather_run {cmp : β → β → W → Option (Int × W)} {w w' : W}
    (h : (gather k qs f).run cmp w = some (out, w')) :
    ∃ g, out = k g ∧ ∀ a b, (a, b) ∉ qs → g a b = f a b := by
  induction qs generalizing f w with
  | nil =>
    cases h
    exact ⟨f, rfl, fun _ _ _ => rfl⟩
  | cons q qs ih =>
    obtain ⟨x, _, hrest⟩ := Option.bind_eq_some_iff.mp h
    obtain ⟨g, hg, hnot⟩ := ih hrest
    refine ⟨g, hg, fun a b hab => ?_⟩
    rw [hnot a b fun h => hab (.tail _ h), if_neg fun h => hab (List.mem_cons.mpr (.inl h))]

theorem gather_eval {cmp : β → β → Int} (hqs : qs.Nodup) :
    ∃ g, (gather k qs f).eval cmp = k g ∧ (∀ a b, (a, b) ∈ qs → g a b = cmp a b) := by
  have hasks : (gather k qs f).Asks (qs.map Prod.fst ++ qs.map Prod.snd) := by
    refine gather_asks fun q hq => ⟨?_, ?_⟩
    · exact List.mem_append_left _ (List.mem_map_of_mem hq)
    · exact List.mem_append_right _ (List.mem_map_of_mem hq)
  have hres : (gather k qs f).Result (fun a b r => r = cmp a b) ((gather k qs f).eval cmp) :=
    Sorter.eval_result hasks fun _ _ _ _ => rfl
  obtain ⟨g, hg, hin, _⟩ := gather_result hres hqs
  exact ⟨g, hg, hin⟩

/-- The order that the answers `f` on `l` are those of, where the others stand behind. -/
def Behind (f : β → β → Int) (l : List β) (a b : β) : Prop := a ∈ l ∧ b ∈ l ∧ f a b ≤ 0 ∨ b ∉ l

instance (a b : β) : Decidable (Behind f l a b) := inferInstanceAs (Decidable (_ ∨ _))

theorem Consistent.behind_total (h : Consistent f l) (a b : β) :
    (decide (Behind f l a b) || decide (Behind f l b a)) = true := by
  rw [Bool.or_eq_true, decide_eq_true_eq, decide_eq_true_eq]
  by_cases hb : b ∈ l
  · by_cases ha : a ∈ l
    · rcases h.totalOn.total a ha b hb with hab | hba
      · exact .inl (.inl ⟨ha, hb, hab⟩)
      · exact .inr (.inl ⟨hb, ha, hba⟩)
    · exact .inr (.inr ha)
  · exact .inl (.inr hb)

theorem Consistent.behind_trans (h : Consistent f l) (a b c : β)
    (hab : decide (Behind f l a b) = true) (hbc : decide (Behind f l b c) = true) :
    decide (Behind f l a c) = true := by
  rw [decide_eq_true_eq] at hab hbc ⊢
  rcases hbc with ⟨hb, hc, hbc⟩ | hc
  · rcases hab with ⟨ha, _, hab⟩ | hb'
    · exact .inl ⟨ha, hc, h.trans a ha b hb c hc hab hbc⟩
    · exact absurd hb hb'
  · exact .inr hc

open Classical in
noncomputable def arrange (l : List β) (f : β → β → Int) : List β :=
  if Consistent f l then l.mergeSort fun a b => Behind f l a b else l

theorem arrange_perm (l : List β) (f : β → β → Int) : (arrange l f).Perm l := by
  unfold arrange
  split
  · exact List.mergeSort_perm l _
  · exact .refl l

theorem arrange_pair {a b : β} (hab : [a, b].Sublist l) (hf : f a b ≤ 0) :
    [a, b].Sublist (arrange l f) := by
  unfold arrange
  split
  · next h =>
    have hle : Behind f l a b :=
      .inl ⟨hab.subset (.head _), hab.subset (.tail _ (.head _)), hf⟩
    exact List.pair_sublist_mergeSort h.behind_trans h.behind_total (decide_eq_true hle) hab
  · exact hab

theorem arrange_pair_of_nonneg {a b : β} (hba : [b, a].Sublist l) (hf : 0 ≤ f a b) :
    [b, a].Sublist (arrange l f) := by
  by_cases h : Consistent f l
  · have ha := hba.subset (.tail _ (.head _))
    exact arrange_pair hba ((h.sign a ha b (hba.subset (.head _))).1 hf)
  · rw [arrange, if_neg h]
    exact hba

theorem arrange_sorts {le : β → β → Prop} (hle : TotalOn le l)
    (h : ∀ a ∈ l, ∀ b ∈ l, Tells le a b (f a b)) :
    (arrange l f).Perm l ∧ (arrange l f).Pairwise le := by
  have hc : Consistent f l := .of_tells hle h
  refine ⟨arrange_perm l f, ?_⟩
  rw [arrange, if_pos hc]
  have hsorted := List.pairwise_mergeSort hc.behind_trans hc.behind_total l
  refine hsorted.imp_of_mem fun {a b} ha hb hab => ?_
  rw [decide_eq_true_eq] at hab
  rcases hab with ⟨ha, hb, hab⟩ | hb'
  · exact (h a ha b hb).1.1 hab
  · exact absurd (List.mem_mergeSort.1 hb) hb'

/-- The questions about `l`, each once, and `first` before the others. -/
def questions (first : Option (β × β)) (l : List β) : List (β × β) :=
  let first := first.toList.filter fun q => q.1 ∈ l ∧ q.2 ∈ l
  first ++ (l.product l).dedup.filter (· ∉ first)

/-- The list as it is taken up, with one element before all others. -/
def upFront (front : Option β) (l : List β) : List β :=
  match front with
  | some a => if a ∈ l then a :: l.erase a else l
  | none => l

theorem upFront_pair {a b : β} (ha : a ∈ l) (hb : b ∈ l) (hne : b ≠ a) :
    [a, b].Sublist (upFront (some a) l) := by
  rw [upFront, if_pos ha]
  exact .cons_cons _ (List.singleton_sublist.mpr ((List.mem_erase_of_ne hne).mpr hb))

theorem upFront_perm (front : Option β) (l : List β) : (upFront front l).Perm l := by
  unfold upFront
  split
  · split
    · next h => exact (List.perm_cons_erase h).symm
    · exact .refl _
  · exact .refl _

variable {first : Option (β × β)}

theorem questions_nodup : (questions first l).Nodup := by
  refine List.Nodup.append ?_ ((List.nodup_dedup _).filter _) fun q hq hq' => ?_
  · cases first with
    | none => exact .nil
    | some q => exact (List.nodup_singleton q).filter _
  · exact of_decide_eq_true (List.mem_filter.mp hq').2 hq

theorem mem_questions {a b : β} : (a, b) ∈ questions first l ↔ a ∈ l ∧ b ∈ l := by
  constructor
  · intro h
    rcases List.mem_append.mp h with h | h
    · exact of_decide_eq_true (List.mem_filter.mp h).2
    · exact List.pair_mem_product.mp (List.mem_dedup.mp (List.mem_filter.mp h).1)
  · intro h
    by_cases hf : (a, b) ∈ first.toList.filter fun q => q.1 ∈ l ∧ q.2 ∈ l
    · exact List.mem_append_left _ hf
    · refine List.mem_append_right _ (List.mem_filter.mpr ⟨?_, decide_eq_true hf⟩)
      exact List.mem_dedup.mpr (List.pair_mem_product.mpr h)

namespace Qsort

noncomputable def picking (first : Option (β × β)) (front : Option β) : Qsort β where
  sorter l := gather (arrange (upFront front l)) (questions first l) fun _ _ => 0
  asks l := gather_asks fun _ hq => mem_questions.mp hq
  sorts l le hle out hout := by
    obtain ⟨g, hg, hin, _⟩ := gather_result hout questions_nodup
    have hp := upFront_perm front l
    have hsub := hp.subset
    have hs := arrange_sorts (hle.subset hsub) fun a ha b hb =>
      hin a b (mem_questions.mpr ⟨hsub ha, hsub hb⟩)
    rw [hg]
    exact ⟨hs.1.trans hp, hs.2⟩

theorem picking_eval (cmp : β → β → Int) (l : List β) :
    ∃ g, (picking none none).sort cmp l = arrange l g ∧ ∀ a ∈ l, ∀ b ∈ l, g a b = cmp a b := by
  have hqs : (questions none l).Nodup := questions_nodup
  obtain ⟨g, hg, hin⟩ : ∃ g,
      (gather (arrange l) (questions none l) fun _ _ => 0).eval cmp = arrange l g ∧
        ∀ a b, (a, b) ∈ questions none l → g a b = cmp a b := gather_eval hqs
  exact ⟨g, hg, fun a ha b hb => hin a b (mem_questions.mpr ⟨ha, hb⟩)⟩

theorem picking_sort {cmp : β → β → Int} (h : ¬ Consistent cmp l) :
    (picking none none).sort cmp l = l := by
  obtain ⟨g, hg, hin⟩ := picking_eval cmp l
  have hc : ¬ Consistent g l := by
    intro hg
    refine h (.of_tells hg.totalOn fun a ha b hb => ?_)
    rw [← hin a ha b hb]
    exact hg.tells a ha b hb
  exact hg.trans (if_neg hc)

theorem picking_pair {cmp : β → β → Int} {a b : β} (hab : [a, b].Sublist l) (h : cmp a b ≤ 0) :
    [a, b].Sublist ((picking none none).sort cmp l) := by
  obtain ⟨g, hg, hin⟩ := picking_eval cmp l
  rw [hg]
  exact arrange_pair hab (hin a (hab.subset (.head _)) b (hab.subset (.tail _ (.head _))) ▸ h)

theorem picking_run {a b : β} {front : Option β} (ha : a ∈ l) (hb : b ∈ l) {w w₁ w' : W} {r : Int}
    {cmp : β → β → W → Option (Int × W)} (hcmp : cmp a b w = some (r, w₁))
    (h : ((picking (some (a, b)) front).sorter l).run cmp w = some (out, w')) :
    ∃ g, out = arrange (upFront front l) g ∧ g a b = r := by
  have hqs : questions (some (a, b)) l =
      (a, b) :: (l.product l).dedup.filter (· ∉ [(a, b)]) := by
    simp [questions, ha, hb]
  change (gather _ (questions (some (a, b)) l) fun _ _ => 0).run cmp w = _ at h
  rw [hqs, gather, Sorter.run, hcmp] at h
  obtain ⟨g, hg, hnot⟩ := gather_run h
  refine ⟨g, hg, ?_⟩
  rw [hnot a b (by simp), if_pos rfl]

omit [DecidableEq β] in
theorem not_pair_sublist {a b : β} (hl : l.Nodup) (hab : [a, b].Sublist l)
    (hba : [b, a].Sublist l) : False := by
  induction l with
  | nil => cases hab
  | cons c l ih =>
    obtain ⟨hc, hl⟩ := List.nodup_cons.mp hl
    cases hab with
    | cons _ hab =>
      cases hba with
      | cons _ hba => exact ih hl hab hba
      | cons_cons _ _ => exact hc (hab.subset (.tail _ (.head _)))
    | cons_cons _ hb =>
      cases hba with
      | cons _ hba => exact hc (hba.subset (.tail _ (.head _)))
      | cons_cons _ _ => exact hc (hb.subset (.head _))

omit [DecidableEq β] in
theorem pair_sublist {a b : β} (ha : a ∈ l) (hb : b ∈ l) (hne : a ≠ b) :
    [a, b].Sublist l ∨ [b, a].Sublist l := by
  induction l with
  | nil => cases ha
  | cons c l ih =>
    cases ha with
    | head =>
      cases hb with
      | head => exact absurd rfl hne
      | tail _ hb => exact .inl (.cons_cons _ (List.singleton_sublist.mpr hb))
    | tail _ ha =>
      cases hb with
      | head => exact .inr (.cons_cons _ (List.singleton_sublist.mpr ha))
      | tail _ hb => exact (ih ha hb).imp (.cons _) (.cons _)

theorem picking_reverse {cmp : β → β → Int} (hl : l.Nodup) (hself : ∀ a ∈ l, cmp a a = 0)
    (h : ¬ (Consistent cmp l ∧ ∀ a ∈ l, ∀ b ∈ l, cmp a b = 0 → a = b)) :
    (picking none none).sort cmp l ≠ (picking none none).sort cmp l.reverse := by
  intro heq
  by_cases hc : Consistent cmp l
  · have hnd : ((picking none none).sort cmp l).Nodup :=
      ((picking none none).sort_perm hc).nodup_iff.mpr hl
    refine h ⟨hc, fun a ha b hb hab => ?_⟩
    by_contra hne
    have hba : cmp b a ≤ 0 := (hc.sign a ha b hb).1 (Int.le_of_eq hab.symm)
    rcases pair_sublist ha hb hne with hsub | hsub
    · exact not_pair_sublist hnd (picking_pair hsub (Int.le_of_eq hab))
        (heq ▸ picking_pair hsub.reverse hba)
    · exact not_pair_sublist hnd (picking_pair hsub hba)
        (heq ▸ picking_pair hsub.reverse (Int.le_of_eq hab))
  · have hcr : ¬ Consistent cmp l.reverse := fun hr =>
      hc (hr.subset fun a ha => List.mem_reverse.mpr ha)
    rw [picking_sort hc, picking_sort hcr] at heq
    match l with
    | [] => exact hc ⟨nofun, nofun⟩
    | [a] =>
      have h0 := hself a (.head _)
      exact hc ⟨by simp [h0], by simp [h0]⟩
    | a :: b :: t =>
      have hab : [a, b].Sublist (a :: b :: t) := .cons_cons _ (.cons_cons _ (List.nil_sublist t))
      refine not_pair_sublist hl hab ?_
      rw [heq]
      exact hab.reverse

end Qsort

end Gather

end Okws.Lib
