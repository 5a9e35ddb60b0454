import Okws.ScalarOrder

namespace Okws

open Lib Scalar Zbuf

namespace Conv

variable {c d : Conv} {s t : Str}

/-- A negative number on the left of a text with blanks before a minus sign that is read as the same
number: they are equal this way round only. -/
def Clash (c d : Conv) : Prop :=
  c.uint = none ∧ d.uint.isSome ∧ ∃ j, j.toInt < 0 ∧ c.int = some j ∧ d.int = some j

theorem order_zero {v w : Int} : order v w = 0 ↔ v = w := by
  have hlt := @order_lt v w
  have hgt := @order_gt v w
  omega

theorem strCmp_zero : ScalarM.strCmp s t = 0 ↔ s = t := by
  simp only [ScalarM.strCmp, ScalarM.compare, decide_eq_true_eq]
  split_ifs with hgt hlt
  · exact iff_of_false (by decide) fun h => List.lt_irrefl _ (h ▸ hgt)
  · exact iff_of_false (by decide) fun h => List.lt_irrefl _ (h ▸ hlt)
  · exact iff_of_true rfl (List.le_antisymm hgt hlt)

theorem Clash.left (h : Clash c d) : c.cmp d s t = 0 := by
  obtain ⟨hcu, -, j, -, hci, hdj⟩ := h
  have hcd : c.cmp d s t = order j.toInt j.toInt := by
    unfold cmp beside number signedNumber
    rw [hcu, hci, hdj]
    rfl
  rw [hcd, order_zero]

theorem Clash.right (h : Clash c d) : d.cmp c t s ≠ 0 := by
  obtain ⟨hcu, hdu, j, hj, hci, -⟩ := h
  obtain ⟨u, hu⟩ := Option.isSome_iff_exists.1 hdu
  have hdc : d.cmp c t s = order u.toNat j.toInt := by
    unfold cmp beside number
    rw [hu, hcu, hci]
    rfl
  rw [hdc, Ne, order_zero]
  omega

theorem cmp_zero (hc : c.Valid) (hd : d.Valid) (h : ¬ Clash c d) :
    c.cmp d s t = 0 ↔ byNumber c.number d.number s t = 0 := by
  by_cases hapart : Apart c d
  · rw [cmp_number hc hd hapart]
  · unfold Apart at hapart
    push Not at hapart
    obtain ⟨u, i, j, hcu, hci, hdu, hdj, hneg, hle⟩ := hapart
    have hne : i.toInt ≠ j.toInt := by
      intro heq
      obtain rfl := Int64.toInt_inj.1 heq
      exact h ⟨hcu, by rw [hdu]; rfl, i, hneg, hci, hdj⟩
    have hcd : c.cmp d s t = order i.toInt j.toInt := by
      unfold cmp beside number signedNumber
      rw [hcu, hci, hdj]
      rfl
    have hnum : byNumber c.number d.number s t = order i.toInt u.toNat := by
      unfold number
      rw [hcu, hci, hdu]
      rfl
    have hi := hc.nonpos hcu hci
    obtain heq | ⟨-, hpos⟩ := hd.both hdu hdj
    · omega
    · rw [hcd, hnum, order_zero, order_zero]
      omega

end Conv

namespace ScalarObj

open Conv

variable {F : Fp} {p q : ScalarObj}

/-- What an object is equal to: a number, or a text that is none. -/
def ident (p : ScalarObj) : Int ⊕ Str := match p.num with
  | some v => .inl v
  | none => .inr p.toStr

theorem cmpOf_eq_zero (hp : Sound p) (hq : Sound q) (h : ¬ Clash p.conv q.conv) :
    cmpOf F p q = 0 ↔ p.ident = q.ident := by
  rw [cmpOf_conv hp hq, cmp_zero hp.valid hq.valid h]
  have hpn := hp.num_isSome
  have hqn := hq.num_isSome
  have htext : (p.num.isSome = q.num.isSome) ∨ p.toStr ≠ q.toStr := by
    by_contra hne
    push Not at hne
    exact hne.1 (by rw [Bool.eq_iff_iff, hpn, hqn, hne.2])
  unfold ident
  change byNumber p.num q.num p.toStr q.toStr = 0 ↔ _
  cases hv : p.num with
  | none => cases hw : q.num with
    | none =>
      change ScalarM.strCmp p.toStr q.toStr = 0 ↔ _
      rw [strCmp_zero, Sum.inr.injEq]
    | some w =>
      rw [hv, hw] at htext
      exact iff_of_false (fun h => htext.elim (by rintro ⟨⟩) fun hne => hne (strCmp_zero.1 h))
        (by rintro ⟨⟩)
  | some v => cases hw : q.num with
    | none =>
      rw [hv, hw] at htext
      exact iff_of_false (fun h => htext.elim (by rintro ⟨⟩) fun hne => hne (strCmp_zero.1 h))
        (by rintro ⟨⟩)
    | some w =>
      change order v w = 0 ↔ _
      rw [Sum.inl.injEq, order_zero]

theorem cmpOf_clash (hp : Sound p) (hq : Sound q) (h : Clash p.conv q.conv) :
    cmpOf F p q = 0 ∧ cmpOf F q p ≠ 0 := by
  rw [cmpOf_conv hp hq, cmpOf_conv hq hp]
  exact ⟨h.left, h.right⟩

end ScalarObj

end Okws
