import Okws.Child

namespace Okws

namespace ChildStatus

def Usable (s : ChildStatus) : Prop := s = .standby ∨ s = .mightWork

def Dead (s : ChildStatus) : Prop := s = .busyLoop ∨ s = .crashed

instance : DecidablePred Usable := fun s => inferInstanceAs (Decidable (s = .standby ∨ _))

instance : DecidablePred Dead := fun s => inferInstanceAs (Decidable (s = .busyLoop ∨ _))

theorem ok_or_usable_or_dead (s : ChildStatus) : s = .ok ∨ s.Usable ∨ s.Dead := by
  cases s <;> simp [Usable, Dead]

theorem Usable.ne_ok {s : ChildStatus} (h : s.Usable) : s ≠ .ok := by
  rintro rfl
  exact absurd h (by decide)

theorem Usable.not_dead {s : ChildStatus} (h : s.Usable) : ¬ s.Dead := by
  obtain rfl | rfl := h <;> decide

theorem not_dead_ok : ¬ (.ok : ChildStatus).Dead := by decide

end ChildStatus

namespace Fit

/-- The child that is returned and the status that is reported belong together, and there is no
better child. -/
structure Right (ss : List ChildStatus) (f : Fit) : Prop where
  ok : .ok ∈ ss → ∃ i, f.ret = some i ∧ ss[i]? = some .ok ∧ f.status = .ok
  usable : .ok ∉ ss → (∃ s ∈ ss, s.Usable) →
    ∃ i s, f.ret = some i ∧ ss[i]? = some s ∧ s.Usable ∧ f.status = s
  error : f.status.Dead → ∀ s ∈ ss, s.Dead

/-- One round of the loop, for a child and its status. -/
def round (f : Fit) (x : Nat × ChildStatus) : Fit :=
  let f := { f with status := x.2 }
  if x.2.Dead then f
  else if f.ret = none ∨ x.2 = .ok then { f with ret := some x.1, retStatus := x.2 }
  else f

def rounds : List (Nat × ChildStatus) → Fit → Fit
  | [], f => f
  | x :: order, f => if f.retStatus = .ok then f else rounds order (f.round x)

section Rounds

variable {f : Fit} {x : Nat × ChildStatus} {order : List (Nat × ChildStatus)}

theorem round_ok (h : x.2 = .ok) :
    f.round x = { ret := some x.1, retStatus := .ok, status := .ok } := by
  obtain ⟨i, s⟩ := x
  obtain rfl : s = .ok := h
  simp [round, ChildStatus.not_dead_ok]

theorem round_usable (h : x.2.Usable) (hf : f.retStatus ≠ .ok) :
    (f.round x).ret = f.ret.or (some x.1) ∧ (f.round x).status = x.2 ∧
      (f.round x).retStatus ≠ .ok := by
  unfold round
  simp only [if_neg h.not_dead, h.ne_ok, or_false]
  cases hret : f.ret with
  | none => exact ⟨rfl, rfl, h.ne_ok⟩
  | some i => exact ⟨rfl, rfl, hf⟩

theorem round_dead (h : x.2.Dead) : f.round x = { f with status := x.2 } := if_pos h

theorem rounds_done (h : f.retStatus = .ok) : rounds order f = f := by
  cases order with
  | nil => rfl
  | cons x order => exact if_pos h

theorem rounds_ok (h : .ok ∈ order.map Prod.snd) (hf : f.retStatus ≠ .ok) :
    ∃ i, (i, .ok) ∈ order ∧ (rounds order f).ret = some i ∧ (rounds order f).status = .ok := by
  induction order generalizing f with
  | nil => cases h
  | cons x order ih =>
    rw [rounds, if_neg hf]
    have hlater {f : Fit} (hx : x.2 ≠ .ok) (hf : f.retStatus ≠ .ok) : ∃ i, (i, .ok) ∈ x :: order ∧
        (rounds order f).ret = some i ∧ (rounds order f).status = .ok := by
      obtain ⟨i, hi, hres⟩ := ih ((List.mem_cons.1 h).resolve_left hx.symm) hf
      exact ⟨i, List.mem_cons_of_mem x hi, hres⟩
    obtain hs | hs | hs := x.2.ok_or_usable_or_dead
    · rw [round_ok hs, rounds_done rfl]
      exact ⟨x.1, hs ▸ List.mem_cons_self, rfl, rfl⟩
    · exact hlater hs.ne_ok (round_usable hs hf).2.2
    · rw [round_dead hs]
      exact hlater (fun hx => ChildStatus.not_dead_ok (hx ▸ hs)) hf

/-- Without an `OK` child, the first one that is usable is kept, and the last status. -/
theorem rounds_not_ok (h : .ok ∉ order.map Prod.snd) (hf : f.retStatus ≠ .ok) :
    (rounds order f).ret = f.ret.or ((order.find? (·.2.Usable)).map Prod.fst) ∧
      (rounds order f).status = (order.map Prod.snd).getLastD f.status := by
  induction order generalizing f with
  | nil => simp [rounds]
  | cons x order ih =>
    rw [List.map_cons, List.mem_cons, not_or] at h
    rw [rounds, if_neg hf, List.map_cons, List.getLastD_cons]
    obtain hs | hs | hs := x.2.ok_or_usable_or_dead
    · exact absurd hs.symm h.1
    · obtain ⟨hret, hstatus, hok⟩ := round_usable hs hf
      obtain ⟨hret', hstatus'⟩ := ih h.2 hok
      rw [hret', hstatus', hret, hstatus, List.find?_cons_of_pos (by simpa using hs)]
      exact ⟨by cases f.ret <;> simp, rfl⟩
    · have hnot : ¬ x.2.Usable := fun hu => hu.not_dead hs
      obtain ⟨hret', hstatus'⟩ := ih (f := f.round x) h.2 (by rwa [round_dead hs])
      rw [hret', hstatus', round_dead hs, List.find?_cons_of_neg (by simpa using hnot)]
      exact ⟨rfl, rfl⟩

end Rounds

end Fit

namespace Cluster

/-- The children in the order of the tries, with their statuses. -/
def tried (ss : List ChildStatus) : Nat → Nat → List (Nat × ChildStatus)
  | 0, _ => []
  | tries + 1, id =>
    let rest := tried ss tries ((id + 1) % 2 ^ 64)
    match ss[id % ss.length]? with
    | some s => (id % ss.length, s) :: rest
    | none => rest

/-- An `OK` child is among those that are tried, if there is one; if there is none but one that is
usable, the last child that is tried has the status of the first usable one. -/
def Meets (ss : List ChildStatus) (order : List (Nat × ChildStatus)) : Prop :=
  (.ok ∈ ss → .ok ∈ order.map Prod.snd) ∧ (.ok ∉ ss → (∃ s ∈ ss, s.Usable) →
    ∃ x, order.find? (·.2.Usable) = some x ∧ (order.map Prod.snd).getLast? = some x.2)

section Tried

variable {cfg : OkdConfig} {now : Nat} {f : Fit} {order : List (Nat × ChildStatus)}

theorem tryChildren_rounds (tries id : Nat) (chs : List Child) :
    (tryChildren cfg now tries id f chs).1 =
      Fit.rounds (tried (statuses cfg now chs) tries id) f := by
  induction tries generalizing id f chs with
  | zero => rfl
  | succ tries ih =>
    have hlen : (statuses cfg now chs).length = chs.length := List.length_map _
    by_cases hok : f.retStatus = .ok
    · rw [tryChildren_ok _ _ _ hok]
      cases h : tried (statuses cfg now chs) (tries + 1) id with
      | nil => rfl
      | cons x order => exact (if_pos hok).symm
    · rw [tryChildren, tried, hlen, if_neg hok]
      cases hch : chs[id % chs.length]? with
      | none =>
        have hss : (statuses cfg now chs)[id % chs.length]? = none := by simp [statuses, hch]
        rw [hss]
        exact ih _ chs
      | some ch =>
        rw [statuses_getElem? cfg now hch]
        dsimp only
        rw [Fit.rounds, if_neg hok]
        by_cases hc : ch.getStatus cfg now = .crashed
        · rw [if_pos hc, ih, Fit.round_dead (.inr hc)]
        · by_cases hb : ch.getStatus cfg now = .busyLoop
          · rw [if_neg hc, if_pos hb, ih, statuses_set hch, Fit.round_dead (.inl hb)]
          · have hlive : ¬ (ch.getStatus cfg now).Dead := fun hd => hd.elim hb hc
            rw [if_neg hc, if_neg hb, Fit.round]
            simp only [if_neg hlive, ne_eq, hok, not_false_eq_true, true_and]
            split
            · exact ih _ chs
            · exact ih _ chs

theorem mem_tried {ss : List ChildStatus} {tries id : Nat} {x : Nat × ChildStatus}
    (h : x ∈ tried ss tries id) : ss[x.1]? = some x.2 := by
  induction tries generalizing id with
  | zero => cases h
  | succ tries ih =>
    rw [tried] at h
    cases hs : ss[id % ss.length]? with
    | none =>
      rw [hs] at h
      exact ih h
    | some s =>
      rw [hs] at h
      obtain rfl | h := List.mem_cons.1 h
      · exact hs
      · exact ih h

variable {ss : List ChildStatus}

theorem right_iff_meets (hmem : ∀ x ∈ order, ss[x.1]? = some x.2) :
    Fit.Right ss (Fit.rounds order {}) ↔ Meets ss order := by
  have hfresh : ({} : Fit).retStatus ≠ .ok := nofun
  have hss {i : Nat} {s : ChildStatus} (h : ss[i]? = some s) : s ∈ ss := List.mem_of_getElem? h
  by_cases hok : .ok ∈ order.map Prod.snd
  · obtain ⟨i, hi, hret, hstatus⟩ := Fit.rounds_ok hok hfresh
    have hget := hmem _ hi
    refine iff_of_true ⟨fun _ => ⟨i, hret, hget, hstatus⟩, fun hno => absurd (hss hget) hno, ?_⟩
      ⟨fun _ => hok, fun hno => absurd (hss hget) hno⟩
    rw [hstatus]
    exact fun hd => absurd hd ChildStatus.not_dead_ok
  · obtain ⟨hret, hstatus⟩ := Fit.rounds_not_ok hok hfresh
    rw [Option.none_or] at hret
    rw [List.getLastD_eq_getLast?] at hstatus
    constructor
    · intro h
      refine ⟨fun hin => ?_, fun hno hu => ?_⟩
      · obtain ⟨i, -, -, hs⟩ := h.ok hin
        rw [hstatus] at hs
        cases hlast : (order.map Prod.snd).getLast? with
        | none => rw [hlast] at hs; cases hs
        | some s =>
          rw [hlast] at hs
          obtain rfl : s = .ok := hs
          exact List.mem_of_getLast? hlast
      · obtain ⟨i, s, hi, hget, hus, hs⟩ := h.usable hno hu
        rw [hret] at hi
        obtain ⟨x, hx, rfl⟩ := Option.map_eq_some_iff.1 hi
        obtain rfl := Option.some.inj ((hmem x (List.mem_of_find?_eq_some hx)).symm.trans hget)
        refine ⟨x, hx, ?_⟩
        rw [hstatus] at hs
        cases hlast : (order.map Prod.snd).getLast? with
        | none =>
          rw [hlast] at hs
          exact absurd (hs ▸ .inr rfl : x.2.Dead) hus.not_dead
        | some s =>
          rw [hlast] at hs
          exact congrArg some hs
    · rintro ⟨hin, hu⟩
      refine ⟨fun h => absurd (hin h) hok, fun hno husable => ?_, fun hd => ?_⟩
      · obtain ⟨x, hx, hlast⟩ := hu hno husable
        have hux : x.2.Usable := by simpa using List.find?_some hx
        exact ⟨x.1, x.2, by rw [hret, hx]; rfl, hmem x (List.mem_of_find?_eq_some hx), hux,
          by rw [hstatus, hlast]; rfl⟩
      · intro s hs
        obtain rfl | hus | hds := s.ok_or_usable_or_dead
        · exact absurd (hin hs) hok
        · obtain ⟨x, hx, hlast⟩ := hu (fun h => hok (hin h)) ⟨s, hs, hus⟩
          have hux : x.2.Usable := by simpa using List.find?_some hx
          rw [hstatus, hlast] at hd
          exact absurd hd hux.not_dead
        · exact hds

/-- What is returned is right if the tries meet it; no child at all is right if all are dead. -/
theorem right_iff (cfg : OkdConfig) (now rand : Nat) (chs : List Child) (acw : Acw) (pref : Int)
    (dres : Option DelimitRes) :
    Fit.Right (statuses cfg now chs) (findBestFitChild cfg now rand chs acw pref dres).1 ↔
      match firstId cfg chs.length rand acw pref dres with
      | some id => Meets (statuses cfg now chs) (tried (statuses cfg now chs) chs.length id)
      | none => ∀ s ∈ statuses cfg now chs, s.Dead := by
  unfold findBestFitChild
  cases firstId cfg chs.length rand acw pref dres with
  | some id =>
    show Fit.Right _ (tryChildren cfg now chs.length id {} chs).1 ↔ _
    rw [tryChildren_rounds]
    exact right_iff_meets fun _ => mem_tried
  | none =>
    refine ⟨fun h => h.error (.inr rfl), fun h => ⟨fun hok => ?_, fun _ hu => ?_, fun _ => h⟩⟩
    · exact absurd (h _ hok) ChildStatus.not_dead_ok
    · obtain ⟨s, hs, hus⟩ := hu
      exact absurd (h s hs) hus.not_dead

/-- A cluster whose second child has crashed; the first one is on standby, but the client gets an
error. -/
theorem not_right_crashed : ¬ ∀ (cfg : OkdConfig) (now rand : Nat) (chs : List Child) (acw : Acw)
    (pref : Int) (dres : Option DelimitRes), Fit.Right (statuses cfg now chs)
      (findBestFitChild cfg now rand chs acw pref dres).1 := by
  intro h
  let cfg : OkdConfig := ⟨0, 0, 0, false, 0, .rr, [], fun _ => 0⟩
  have hright := h cfg 0 0 [{ state := .standby }, { state := .hosed }] ⟨none, none⟩ 0 none
  obtain ⟨i, s, -, -, hus, hstatus⟩ :=
    hright.usable (by decide) ⟨.standby, by decide, .inl rfl⟩
  have hcrashed : s = .crashed := hstatus.symm.trans rfl
  exact absurd (hcrashed ▸ hus) (by decide)

end Tried

end Cluster

end Okws
