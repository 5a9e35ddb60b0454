import Okws.Datum
import Okws.JsonScan
import Okws.Lib.Delimit

namespace Okws.Scan

open Lib

section Literals

variable {t s : Str}

def behind : Str → Str
  | [] => []
  | 34 :: t => t
  | 92 :: _ :: t => behind t
  | _ :: t => behind t

theorem behind_raw {b : UInt8} (h34 : b ≠ 34) (h92 : b ≠ 92) : behind (b :: t) = behind t := by
  rw [behind]
  · exact h34
  · exact fun _ _ h => absurd h h92

theorem hexDigit_plain {b : UInt8} {v : Nat} (h : Json.hexDigit b = some v) :
    b ≠ 34 ∧ b ≠ 92 ∧ b ≠ 0 := by
  refine ⟨?_, ?_, ?_⟩ <;> rintro rfl <;> cases h

theorem hex4_plain {a b c d : UInt8} {v : Nat} (h : Json.hex4 a b c d = some v) :
    ∀ x ∈ [a, b, c, d], x ≠ 34 ∧ x ≠ 92 ∧ x ≠ 0 := by
  simp only [Json.hex4, bind, Option.bind_eq_some_iff] at h
  obtain ⟨va, ha, vb, hb, vc, hc, vd, hd, -⟩ := h
  refine List.forall_mem_cons.2 ⟨hexDigit_plain ha, List.forall_mem_cons.2 ⟨hexDigit_plain hb,
    List.forall_mem_cons.2 ⟨hexDigit_plain hc, List.forall_mem_singleton.2 (hexDigit_plain hd)⟩⟩⟩

theorem behind_hex {a b c d : UInt8} {v : Nat} (h : Json.hex4 a b c d = some v) :
    behind (92 :: 117 :: a :: b :: c :: d :: t) = behind t := by
  have hx := hex4_plain h
  simp only [List.mem_cons, List.not_mem_nil, or_false, forall_eq_or_imp, forall_eq] at hx
  obtain ⟨ha, hb, hc, hd⟩ := hx
  rw [behind, behind_raw ha.1 ha.2.1, behind_raw hb.1 hb.2.1, behind_raw hc.1 hc.2.1,
    behind_raw hd.1 hd.2.1]

theorem ne_zero_hex {a b c d : UInt8} {v : Nat} (h : Json.hex4 a b c d = some v)
    (ht : ∀ x ∈ t, x ≠ 0) : ∀ x ∈ 92 :: 117 :: a :: b :: c :: d :: t, x ≠ 0 := by
  refine List.forall_mem_cons.2 ⟨by decide, List.forall_mem_cons.2 ⟨by decide, fun x hx => ?_⟩⟩
  obtain hx | hx := List.mem_append.1 (show x ∈ [a, b, c, d] ++ t from hx)
  · exact (hex4_plain h x hx).2.2
  · exact ht x hx

theorem Body.behind (h : Body 34 t s) (r : Str) : behind (t ++ r) = r := by
  induction h with
  | close => rfl
  | raw _ h34 h92 _ ih => exact (behind_raw h34 h92).trans ih
  | escape _ _ ih => exact ih
  | hex hv _ _ ih => exact (behind_hex hv).trans ih
  | pair hv _ hw _ _ ih => exact (behind_hex hv).trans ((behind_hex hw).trans ih)

theorem Body.ne_zero (h : Body 34 t s) : ∀ b ∈ t, b ≠ 0 := by
  induction h with
  | close => exact List.forall_mem_singleton.2 (by decide)
  | raw hle _ _ _ ih =>
    refine List.forall_mem_cons.2 ⟨?_, ih⟩
    rintro rfl
    exact absurd hle (by decide)
  | escape he _ ih =>
    refine List.forall_mem_cons.2 ⟨by decide, List.forall_mem_cons.2 ⟨?_, ih⟩⟩
    rintro rfl
    cases he
  | hex hv _ _ ih => exact ne_zero_hex hv ih
  | pair hv _ hw _ _ ih => exact ne_zero_hex hv (ne_zero_hex hw ih)

end Literals

end Okws.Scan

namespace Okws.Pub3

open Zbuf Lib

variable (P : Prims)

/-- The text is written as a literal that stands for it. -/
def Literal (s : Str) : Prop := Json.string (P.quote strOpt s) = some s

inductive Tree.Legible : Tree → Prop
  | null : Legible .null
  | bool (b : Bool) : Legible (.bool b)
  | num (z : Int) : Legible (.num z)
  | str {s : Str} : Literal P s → Legible (.str s)
  | list {ts : List Tree} : (∀ t ∈ ts, Legible t) → Legible (.list ts)
  | dict {bs : List (Str × Tree)} : (∀ b ∈ bs, Literal P b.1) → (∀ b ∈ bs, Legible b.2) →
    Legible (.dict bs)

variable {P}

theorem Literal.body {s : Str} (h : Literal P s) :
    ∃ t, P.quote strOpt s = 34 :: t ∧ Scan.Body 34 t s := by
  unfold Literal Json.string at h
  split at h
  · next t ht => exact ⟨t, ht, Scan.body_of_json h⟩
  · cases h

theorem Literal.unique {s s' r r' : Str} (h : Literal P s) (h' : Literal P s')
    (heq : P.quote strOpt s ++ r = P.quote strOpt s' ++ r') : s = s' ∧ r = r' := by
  obtain ⟨t, ht, hbody⟩ := h.body
  obtain ⟨t', ht', hbody'⟩ := h'.body
  rw [ht, ht', List.cons_append, List.cons_append, List.cons.injEq] at heq
  have hr : r = r' := by rw [← hbody.behind r, heq.2, hbody'.behind]
  subst hr
  have htt := List.append_cancel_right heq.2
  refine ⟨?_, rfl⟩
  have hs := h
  rw [Literal, ht, htt, ← ht', h'] at hs
  exact (Option.some.inj hs).symm

theorem Literal.ne_zero {s : Str} (h : Literal P s) : ∀ b ∈ P.quote strOpt s, b ≠ 0 := by
  obtain ⟨t, ht, hbody⟩ := h.body
  rw [ht]
  exact List.forall_mem_cons.2 ⟨by decide, hbody.ne_zero⟩

def Tree.Head : Tree → UInt8 → Prop
  | .null, b => b = 110
  | .bool _, b => b = 116 ∨ b = 102
  | .num _, b => b = 45 ∨ Inet.isDigit b = true
  | .str _, b => b = 34
  | .list _, b => b = 91
  | .dict _, b => b = 123

theorem decimal_head (z : Int) : ∃ b r, decimal z = b :: r ∧ (b = 45 ∨ Inet.isDigit b = true) := by
  by_cases h0 : z < 0
  · exact ⟨45, _, Scalar.decimal_neg h0, .inl rfl⟩
  · obtain ⟨n, rfl⟩ := Int.eq_ofNat_of_zero_le (Int.not_lt.1 h0)
    obtain ⟨b, t, hbt, hb, -⟩ := Scalar.head_natural n
    exact ⟨b, t, (Scalar.decimal_nat n).trans hbt, .inr hb⟩

theorem Tree.Legible.head {t : Tree} (h : t.Legible P) :
    ∃ b r, t.text P = b :: r ∧ t.Head b := by
  cases h with
  | null => exact ⟨_, _, rfl, rfl⟩
  | bool b => cases b with
    | true => exact ⟨_, _, rfl, .inl rfl⟩
    | false => exact ⟨_, _, rfl, .inr rfl⟩
  | num z => exact decimal_head z
  | str hs =>
    obtain ⟨t, ht, -⟩ := hs.body
    exact ⟨_, _, ht, rfl⟩
  | list => exact ⟨_, _, rfl, rfl⟩
  | dict => exact ⟨_, _, rfl, rfl⟩

theorem Tree.Head.unique {t u : Tree} {b : UInt8} (ht : t.Head b) (hu : u.Head b) :
    t.ctorIdx = u.ctorIdx := by
  cases t <;> cases u <;> first
    | rfl
    | (simp only [Tree.Head, Inet.isDigit, Bool.and_eq_true, decide_eq_true_eq] at ht hu
       grind)

theorem decimal_ne_zero (z : Int) : ∀ b ∈ decimal z, b ≠ 0 := by
  have hdigit (b : UInt8) (hb : Inet.isDigit b = true) : b ≠ 0 := (Scalar.isDigit_plain hb).1
  intro b hb
  by_cases h0 : z < 0
  · rw [Scalar.decimal_neg h0] at hb
    obtain rfl | hb := List.mem_cons.1 hb
    · decide
    · exact hdigit b (Scalar.natural_all _ b hb)
  · obtain ⟨n, rfl⟩ := Int.eq_ofNat_of_zero_le (Int.not_lt.1 h0)
    exact hdigit b (Scalar.natural_all n b (Scalar.decimal_nat n ▸ hb))

theorem text_ne_zero {s : String} (h : (Pub3.text s).all (· != 0) = true) :
    ∀ b ∈ Pub3.text s, b ≠ 0 :=
  fun b hb => bne_iff_ne.1 (List.all_eq_true.1 h b hb)

theorem vec2str_ne_zero {X : Type} {f : X → Str} {xs : List X} {l r : UInt8} (hl : l ≠ 0)
    (hr : r ≠ 0) (h : ∀ x ∈ xs, ∀ b ∈ f x, b ≠ 0) :
    ∀ b ∈ vec2str (xs.map f) l r false, b ≠ 0 := by
  intro b hb
  obtain rfl | hb := List.mem_cons.1 hb
  · exact hl
  obtain rfl | hb | ⟨x, hx, hb⟩ := mem_brackets hb
  · exact hr
  · have hsep : ∀ b ∈ ([44, 32] : Str), b ≠ 0 :=
      List.forall_mem_cons.2 ⟨by decide, List.forall_mem_singleton.2 (by decide)⟩
    exact hsep b hb
  · exact h x hx b hb

def Tree.entry (P : Prims) (b : Str × Tree) : Str :=
  P.quote strOpt b.1 ++ (Pub3.text " : " ++ b.2.text P)

theorem entryTexts_legible {bs : List (Str × Tree)} (hkeys : ∀ b ∈ bs, Literal P b.1)
    (hvals : ∀ b ∈ bs, ∀ c ∈ b.2.text P, c ≠ 0) :
    Tree.entryTexts P bs = bs.map (Tree.entry P) := by
  rw [Tree.entryTexts_eq]
  refine List.map_congr_left fun b hb => ?_
  unfold entryText Tree.entry
  rw [Scan.cstr_of_ne_zero (hkeys b hb).ne_zero, Scan.cstr_of_ne_zero (hvals b hb),
    List.append_assoc]

theorem Tree.Legible.ne_zero {t : Tree} (h : t.Legible P) : ∀ b ∈ t.text P, b ≠ 0 := by
  induction h with
  | null => exact text_ne_zero (by decide)
  | bool b => cases b <;> exact text_ne_zero (by decide)
  | num z => exact decimal_ne_zero z
  | str hs => exact hs.ne_zero
  | list _ ih =>
    rw [text, texts_eq]
    exact vec2str_ne_zero (by decide) (by decide) ih
  | dict hkeys _ ih =>
    rw [text, entryTexts_legible hkeys ih]
    refine vec2str_ne_zero (by decide) (by decide) fun b hb c hc => ?_
    obtain hc | hc := List.mem_append.1 hc
    · exact (hkeys b hb).ne_zero c hc
    obtain hc | hc := List.mem_append.1 hc
    · exact text_ne_zero (by decide) c hc
    · exact ih b hb c hc

def Stop (r : Str) : Prop := ∃ b t, r = b :: t ∧ b ∈ [44, 93, 125]

theorem decimal_delimited (z : Int) : Delimited decimal Stop (fun _ => True) z := by
  rintro w _ _ - ⟨b, t, rfl, hb⟩ ⟨c, u, rfl, hc⟩ h
  have hstop (b : UInt8) (hb : b ∈ [44, 93, 125]) (n : Nat) (t : Str) :
      Inet.digits 10 0 (Scalar.natural n ++ b :: t) = (n, b :: t) := by
    have hlt : ¬ Inet.digit b < 10 := by
      simp only [List.mem_cons, List.not_mem_nil, or_false] at hb
      obtain rfl | rfl | rfl := hb <;> decide
    rw [Scalar.digits_natural, Inet.digits, if_neg hlt]
  have hnat {n m : Nat} (h : Scalar.natural n ++ b :: t = Scalar.natural m ++ c :: u) :
      n = m ∧ b :: t = c :: u := by
    have heq := congrArg (Inet.digits 10 0) h
    rwa [hstop b hb, hstop c hc, Prod.mk.injEq] at heq
  -- a digit is no minus sign
  have hminus {n m : Nat} {r r' : Str} (h : 45 :: (Scalar.natural n ++ r) = Scalar.natural m ++ r') :
      False := by
    obtain ⟨d, v, hd, hdigit, -⟩ := Scalar.head_natural m
    rw [hd, List.cons_append, List.cons.injEq] at h
    rw [← h.1] at hdigit
    exact absurd hdigit (by decide)
  by_cases hz : z < 0
  · rw [Scalar.decimal_neg hz, List.cons_append] at h
    by_cases hw : w < 0
    · rw [Scalar.decimal_neg hw, List.cons_append, List.cons.injEq] at h
      obtain ⟨habs, hr⟩ := hnat h.2
      exact ⟨by omega, hr⟩
    · obtain ⟨m, rfl⟩ := Int.eq_ofNat_of_zero_le (Int.not_lt.1 hw)
      exact (hminus (h.trans (by rw [← Scalar.decimal_nat]))).elim
  · obtain ⟨n, rfl⟩ := Int.eq_ofNat_of_zero_le (Int.not_lt.1 hz)
    by_cases hw : w < 0
    · rw [Scalar.decimal_neg hw, List.cons_append] at h
      exact (hminus (h.symm.trans (by rw [← Scalar.decimal_nat]))).elim
    · obtain ⟨m, rfl⟩ := Int.eq_ofNat_of_zero_le (Int.not_lt.1 hw)
      obtain ⟨rfl, hr⟩ := hnat (n := n) (m := m)
        (by rw [← Scalar.decimal_nat, ← Scalar.decimal_nat]; exact h)
      exact ⟨rfl, hr⟩

theorem Tree.Legible.same_kind {t u : Tree} {r r' : Str} (ht : t.Legible P) (hu : u.Legible P)
    (h : t.text P ++ r = u.text P ++ r') : t.ctorIdx = u.ctorIdx := by
  obtain ⟨b, s, hs, hb⟩ := ht.head
  obtain ⟨c, v, hv, hc⟩ := hu.head
  rw [hs, hv, List.cons_append, List.cons_append, List.cons.injEq] at h
  rw [← h.1] at hc
  exact hb.unique hc

theorem brackets_list : Brackets (Tree.text P) Stop (Tree.Legible P) [44, 32] 93 where
  stop_sep r := ⟨44, _, rfl, by decide⟩
  stop_close r := ⟨93, _, rfl, by decide⟩
  sep_ne r r' h := by cases h
  text_ne t ht r r' h := by
    obtain ⟨b, s, hs, hb⟩ := ht.head
    rw [hs, List.cons_append, List.cons.injEq] at h
    obtain ⟨rfl, -⟩ := h
    cases t <;> revert hb <;> simp [Tree.Head, Inet.isDigit]

theorem brackets_dict : Brackets (Tree.entry P) Stop
    (fun b => Literal P b.1 ∧ b.2.Legible P) [44, 32] 125 where
  stop_sep r := ⟨44, _, rfl, by decide⟩
  stop_close r := ⟨125, _, rfl, by decide⟩
  sep_ne r r' h := by cases h
  text_ne b hb r r' h := by
    obtain ⟨t, ht, -⟩ := hb.1.body
    rw [Tree.entry, ht] at h
    cases h

theorem entry_delimited {b : Str × Tree} (hkey : Literal P b.1)
    (hval : Delimited (Tree.text P) Stop (Tree.Legible P) b.2) :
    Delimited (Tree.entry P) Stop (fun b => Literal P b.1 ∧ b.2.Legible P) b := by
  rintro ⟨k, u⟩ r r' ⟨hk, hu⟩ hr hr' h
  simp only [Tree.entry, List.append_assoc] at h
  obtain ⟨hkeys, h⟩ := hkey.unique hk h
  obtain ⟨hvals, hrest⟩ := hval u r r' hu hr hr' (List.append_cancel_left h)
  exact ⟨Prod.ext hkeys hvals, hrest⟩

theorem Tree.Legible.delimited {t : Tree} (h : t.Legible P) :
    Delimited (Tree.text P) Stop (Tree.Legible P) t := by
  induction h with
  | null =>
    intro u r r' hu hr hr' heq
    have hk := Tree.Legible.null.same_kind hu heq
    cases hu <;> cases hk
    exact ⟨rfl, List.append_cancel_left heq⟩
  | bool b =>
    intro u r r' hu hr hr' heq
    have hk := (Tree.Legible.bool b).same_kind hu heq
    cases hu <;> cases hk
    next c =>
    cases b <;> cases c
    · exact ⟨rfl, List.append_cancel_left heq⟩
    · cases heq
    · cases heq
    · exact ⟨rfl, List.append_cancel_left heq⟩
  | num z =>
    intro u r r' hu hr hr' heq
    have hk := (Tree.Legible.num z).same_kind hu heq
    cases hu <;> cases hk
    next w =>
    obtain ⟨rfl, hrest⟩ := decimal_delimited z w r r' trivial hr hr' heq
    exact ⟨rfl, hrest⟩
  | str hs =>
    intro u r r' hu hr hr' heq
    have hk := (Tree.Legible.str hs).same_kind hu heq
    cases hu <;> cases hk
    next hs' =>
    obtain ⟨rfl, hrest⟩ := hs.unique hs' heq
    exact ⟨rfl, hrest⟩
  | list hts ih =>
    intro u r r' hu hr hr' heq
    have hk := (Tree.Legible.list hts).same_kind hu heq
    cases hu <;> cases hk
    next us hus =>
    rw [text, text, texts_eq, texts_eq] at heq
    obtain ⟨rfl, hrest⟩ := brackets_list.delimited hts ih us r r' hus trivial trivial
      (List.cons.inj heq).2
    exact ⟨rfl, hrest⟩
  | dict hkeys hvals ih =>
    intro u r r' hu hr hr' heq
    have hk := (Tree.Legible.dict hkeys hvals).same_kind hu heq
    cases hu <;> cases hk
    next cs hkeys' hvals' =>
    rw [text, text, entryTexts_legible hkeys fun b hb => (hvals b hb).ne_zero,
      entryTexts_legible hkeys' fun b hb => (hvals' b hb).ne_zero] at heq
    obtain ⟨rfl, hrest⟩ := brackets_dict.delimited (fun b hb => ⟨hkeys b hb, hvals b hb⟩)
      (fun b hb => entry_delimited (hkeys b hb) (ih b hb)) cs r r'
      (fun b hb => ⟨hkeys' b hb, hvals' b hb⟩) trivial trivial (List.cons.inj heq).2
    exact ⟨rfl, hrest⟩

theorem Tree.Legible.text_inj {t u : Tree} (ht : t.Legible P) (hu : u.Legible P)
    (h : t.text P = u.text P) : t = u :=
  (ht.delimited u [44] [44] hu ⟨44, [], rfl, by decide⟩ ⟨44, [], rfl, by decide⟩ (by rw [h])).1

end Okws.Pub3
