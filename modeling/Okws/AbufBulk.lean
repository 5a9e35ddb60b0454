import Okws.Abuf

/-! The bulk reads of `abuf_t`, a second path to the same bytes as `get`. -/

namespace Okws

open Lib

/-- What `dump` and `stream` return; `abort` is a failed assertion. -/
inductive Bulk
  | data (s : Str)
  | eof
  | wait
  | abort
  deriving DecidableEq

def Bulk.bytes : Bulk → Str
  | .data s => s
  | _ => []

namespace Abuf

/-- `(char) lch`, where `ABUF_EOFCHAR` is `-0xffff0` and `ABUF_WAITCHAR` is `-0xffff1`. -/
def lchChar (a : Abuf) : UInt8 :=
  match a.lch with
  | .byte b => b
  | .eof => 0x10
  | .wait => 0x0f

def flush (len : Nat) (a : Abuf) : Str × Abuf :=
  if len = 0 ∨ a.avail = [] then ([], a)
  else
    let back := if a.bc then [a.lchChar] else []
    let out := a.avail.take (len - back.length)
    (back ++ out, { a with
      avail := a.avail.drop (len - back.length), ccnt := a.ccnt + out.length, bc := false })

def getErrchar (a : Abuf) : Option Bulk :=
  if 0 ≤ a.lim ∧ a.lim ≤ a.ccnt then some .eof
  else match a.erc with
    | .eof => some .eof
    | .wait => some .wait
    | _ => none

@[simp] theorem flush_src (len : Nat) (a : Abuf) : (a.flush len).2.src = a.src := by
  unfold flush
  split <;> rfl

@[simp] theorem flush_erc (len : Nat) (a : Abuf) : (a.flush len).2.erc = a.erc := by
  unfold flush
  split <;> rfl

def refills (a : Abuf) : Nat := a.src.length + if a.erc = .ok then 1 else 0

theorem refills_moredata {a : Abuf} (h : a.erc = .ok) : a.moredata.refills < a.refills := by
  unfold refills moredata
  split
  · simp [h]
  · next hs =>
    rw [hs]
    split
    · simp only [List.length_cons, reduceCtorEq, if_false]
      omega
    · simp only [List.length_cons, if_true]
      omega

/-- The loop of `dump`. -/
def dumpLoop (spaceleft : Nat) (a : Abuf) : Str × Abuf :=
  if _h : 0 < spaceleft ∧ a.erc = .ok then
    let out := (a.flush spaceleft).1
    let a' := (a.flush spaceleft).2
    if 0 < spaceleft - out.length then
      let r := dumpLoop (spaceleft - out.length) a'.moredata
      (out ++ r.1, r.2)
    else (out, a')
  else ([], a)
termination_by a.refills
decreasing_by
  have := refills_moredata (a := (a.flush spaceleft).2) (by simpa using _h.2)
  simpa [refills] using this

def dump (len : Nat) (a : Abuf) : Bulk × Abuf :=
  match a.getErrchar with
  | some r => (r, a)
  | none =>
    let (s, a') := a.dumpLoop len
    (.data s, a')

/-- `stream`; the assertion on `lch` reads it as a signed `char`. -/
def stream (a : Abuf) : Bulk × Abuf :=
  if a.bc then
    match a.lch with
    | .byte b => if b < 128 then (.data [b], { a with bc := false }) else (.abort, a)
    | _ => (.abort, a)
  else match a.getErrchar with
    | some r => (r, a)
    | none =>
      let m := if a.avail = [] then a.moredata else a
      match if a.avail = [] then m.getErrchar else none with
      | some r => (r, m)
      | none =>
        if m.erc = .ok then
          (.data m.avail, { m with avail := [], ccnt := m.ccnt + m.avail.length })
        else (.abort, m)

/-- The `get` calls that can still answer with something else than the end. -/
def patience (a : Abuf) : Nat :=
  a.size + a.src.length + if a.erc = .wait then 1 else 0

theorem patience_byte {a a' : Abuf} {b : UInt8} (h : a.get = (.byte b, a')) :
    a'.patience < a.patience := by
  obtain ⟨hbc, hg⟩ | ⟨hbc, _, hg⟩ | ⟨hbc, _, ⟨c, cs, hav, hg⟩ | ⟨c, cs, rs, hav, he, hsrc, hg⟩ |
    ⟨_, _, _, _, hg⟩ | ⟨_, _, _, hg⟩ | ⟨_, _, hg⟩ | ⟨_, _, _, hg⟩⟩ := get_cases a <;>
    rw [hg] at h <;> simp only [gotChar, Prod.mk.injEq, reduceCtorEq, false_and] at h <;>
    simp_all [← h.2, patience, size]
  omega

theorem patience_wait {a a' : Abuf} (h : a.get = (.wait, a')) :
    a'.canRead.patience < a.patience := by
  obtain ⟨hbc, hg⟩ | ⟨hbc, _, hg⟩ | ⟨hbc, _, ⟨c, cs, hav, hg⟩ | ⟨c, cs, rs, hav, he, hsrc, hg⟩ |
    ⟨_, hav, he, hsrc, hg⟩ | ⟨_, _, _, hg⟩ | ⟨hav, he, hg⟩ | ⟨_, _, _, hg⟩⟩ := get_cases a <;>
    rw [hg] at h <;> simp only [gotChar, Prod.mk.injEq, reduceCtorEq, false_and] at h <;>
    simp_all [← h.2, patience, size, canRead]
  omega

/-- The bytes repeated calls of `get` return, waiting for the source where it has to. -/
def drain (a : Abuf) : Str :=
  match _h : a.get with
  | (.byte b, a') => b :: drain a'
  | (.wait, a') => drain a'.canRead
  | (.eof, _) => []
termination_by a.patience
decreasing_by
  · exact patience_byte _h
  · exact patience_wait _h

inductive Reachable (rs : List Str) : Abuf → Prop
  | start : Reachable rs { src := rs }
  | get {a} : Reachable rs a → Reachable rs a.get.2
  | unget {a} : Reachable rs a → Reachable rs a.unget
  | setlim {a} (l : Int) : Reachable rs a → Reachable rs (a.setlim l)
  | canRead {a} : Reachable rs a → Reachable rs a.canRead

structure Sound (a : Abuf) : Prop where
  erc : a.erc = .ok ∨ (a.avail = [] ∧ (a.erc = .wait ∨ (a.erc = .eof ∧ a.src = [])))
  bc : a.bc = true → a.lch ≠ .wait
  eof : a.lch = .eof → a.avail = [] ∧ a.src = []
  ccnt : 0 ≤ a.ccnt
  lim : a.lim < 0 ∨ a.ccnt ≤ a.lim

theorem Sound.get {a : Abuf} (h : a.Sound) : a.get.2.Sound := by
  obtain ⟨herc, hb, heof, hc, hlim⟩ := h
  obtain ⟨hbc, hg⟩ | ⟨hbc, _, hg⟩ | ⟨hbc, hl, ⟨c, cs, hav, hg⟩ | ⟨c, cs, rs, hav, he, hsrc, hg⟩ |
    ⟨rs, hav, he, hsrc, hg⟩ | ⟨hav, he, hsrc, hg⟩ | ⟨hav, he, hg⟩ | ⟨hav, he, hw, hg⟩⟩ :=
    get_cases a <;> rw [hg]
  · exact ⟨herc, by simp, heof, hc, hlim⟩
  · exact ⟨herc, hb, heof, hc, hlim⟩
  · have hok : a.erc = .ok := by simpa [hav] using herc
    exact ⟨.inl hok, by simp [gotChar], by simp [gotChar], by simp only [gotChar]; omega,
      by simp only [gotChar]; omega⟩
  · exact ⟨.inl he, by simp [gotChar], by simp [gotChar], by simp only [gotChar]; omega,
      by simp only [gotChar]; omega⟩
  · exact ⟨.inr ⟨hav, .inl rfl⟩, by simp [hbc], by simp, hc, hlim⟩
  · exact ⟨.inr ⟨hav, .inr ⟨rfl, hsrc⟩⟩, by simp, fun _ => ⟨hav, hsrc⟩, hc, hlim⟩
  · exact ⟨.inr ⟨hav, .inl he⟩, by simp [hbc], by simp, hc, hlim⟩
  · have hsrc : a.erc = .eof ∧ a.src = [] := by simpa [he, hw, hav] using herc
    exact ⟨.inr ⟨hav, .inr hsrc⟩, by simp, fun _ => ⟨hav, hsrc.2⟩, hc, hlim⟩

theorem Sound.canRead {a : Abuf} (h : a.Sound) : a.canRead.Sound :=
  ⟨.inl rfl, h.bc, h.eof, h.ccnt, h.lim⟩

theorem Reachable.sound {rs : List Str} {a : Abuf} (h : Reachable rs a) : a.Sound := by
  induction h with
  | start => exact ⟨.inl rfl, by simp, by simp, by simp, by simp⟩
  | get _ ih => exact ih.get
  | unget _ ih =>
    unfold Abuf.unget
    split
    · next hl => exact ⟨ih.erc, fun _ => hl, ih.eof, ih.ccnt, ih.lim⟩
    · exact ih
  | setlim l _ ih =>
    exact ⟨ih.erc, ih.bc, ih.eof, by simp [Abuf.setlim], by simp [Abuf.setlim]; omega⟩
  | canRead _ ih => exact ih.canRead

def ahead (a : Abuf) : Str :=
  if a.lim < 0 then a.avail ++ a.src.flatten
  else (a.avail ++ a.src.flatten).take (a.lim - a.ccnt).toNat

def pushed (a : Abuf) : Str :=
  match a.bc, a.lch with
  | true, .byte b => [b]
  | _, _ => []

theorem ahead_cons {a : Abuf} (a' : Abuf) {c : UInt8} (h : a.Sound) (hl : a.lim ≠ a.ccnt)
    (hs : a.avail ++ a.src.flatten = c :: (a'.avail ++ a'.src.flatten)) (hlim : a'.lim = a.lim)
    (hc : a'.ccnt = a.ccnt + 1) : a.ahead = c :: a'.ahead := by
  have hlt := h.lim
  unfold ahead
  rw [hs, hlim, hc]
  split
  · rfl
  · obtain ⟨k, hk⟩ : ∃ k : Nat, a.lim - a.ccnt = k + 1 := ⟨(a.lim - a.ccnt - 1).toNat, by omega⟩
    have hk' : a.lim - (a.ccnt + 1) = k := by omega
    rw [hk, hk']
    rfl

theorem drain_eq {a : Abuf} (h : a.Sound) : a.drain = a.pushed ++ a.ahead := by
  fun_induction drain a with
  | case1 a b a' hget ih =>
    have hs := h.get
    rw [hget] at hs
    rw [ih hs]
    obtain ⟨hbc, hg⟩ | ⟨hbc, _, hg⟩ | ⟨hbc, hl, ⟨c, cs, hav, hg⟩ | ⟨c, cs, rs, hav, he, hsrc, hg⟩ |
      ⟨_, _, _, _, hg⟩ | ⟨_, _, _, hg⟩ | ⟨_, _, hg⟩ | ⟨_, _, _, hg⟩⟩ := get_cases a <;>
      rw [hg] at hget <;> simp only [gotChar, Prod.mk.injEq, reduceCtorEq, false_and] at hget
    · obtain ⟨hb, rfl⟩ := hget
      simp [pushed, hbc, hb, ahead]
    · cases hget.1
      rw [ahead_cons a' (c := b) h hl (by simp [← hget.2, hav]) (by simp [← hget.2])
        (by simp [← hget.2])]
      simp [pushed, hbc, ← hget.2]
    · cases hget.1
      rw [ahead_cons a' (c := b) h hl (by simp [← hget.2, hav, hsrc]) (by simp [← hget.2])
        (by simp [← hget.2])]
      simp [pushed, hbc, ← hget.2]
  | case2 a a' hget ih =>
    have hs := h.get
    rw [hget] at hs
    rw [ih hs.canRead]
    obtain ⟨hbc, hg⟩ | ⟨hbc, _, hg⟩ | ⟨hbc, hl, ⟨c, cs, hav, hg⟩ | ⟨c, cs, rs, hav, he, hsrc, hg⟩ |
      ⟨rs, hav, he, hsrc, hg⟩ | ⟨_, _, _, hg⟩ | ⟨hav, he, hg⟩ | ⟨_, _, _, hg⟩⟩ := get_cases a <;>
      rw [hg] at hget <;> simp only [gotChar, Prod.mk.injEq, reduceCtorEq, false_and] at hget
    · exact absurd hget.1 (h.bc hbc)
    · rw [← hget.2]
      simp [pushed, ahead, canRead, hbc, hav, hsrc]
    · rw [← hget.2]
      simp [pushed, ahead, canRead, hbc]
  | case3 a a' hget =>
    obtain ⟨hbc, hg⟩ | ⟨hbc, hl, hg⟩ | ⟨hbc, hl, ⟨c, cs, hav, hg⟩ | ⟨c, cs, rs, hav, he, hsrc, hg⟩ |
      ⟨rs, hav, he, hsrc, hg⟩ | ⟨hav, he, hsrc, hg⟩ | ⟨hav, he, hg⟩ | ⟨hav, he, hw, hg⟩⟩ :=
      get_cases a <;> rw [hg] at hget <;>
      simp only [gotChar, Prod.mk.injEq, reduceCtorEq, false_and] at hget
    · have := h.eof hget.1
      simp [pushed, ahead, hget.1, this]
    · have := h.ccnt
      simp [pushed, ahead, hbc, hl]
      omega
    · simp [pushed, ahead, hbc, hav, hsrc]
    · have := h.erc
      simp [he, hw] at this
      simp [pushed, ahead, hbc, hav, this]

def ready (a : Abuf) : Str := a.avail ++ (a.src.takeWhile (· ≠ [])).flatten

/-- At most `n` more bytes fit under the limit. -/
def Fits (a : Abuf) (n : Nat) : Prop := a.lim < 0 ∨ (n : Int) ≤ a.lim - a.ccnt

instance (a : Abuf) (n : Nat) : Decidable (a.Fits n) := inferInstanceAs (Decidable (_ ∨ _))

theorem Fits.mono {a : Abuf} {n m : Nat} (h : a.Fits n) (hm : m ≤ n) : a.Fits m :=
  h.imp_right fun h => by omega

theorem Sound.moredata {a : Abuf} (h : a.Sound) (hav : a.avail = []) :
    a.moredata.Sound ∧ a.moredata.pushed = a.pushed ∧ a.moredata.ahead = a.ahead := by
  unfold Abuf.moredata
  split
  · next hs =>
    exact ⟨⟨.inr ⟨rfl, .inr ⟨rfl, hs⟩⟩, h.bc, fun _ => ⟨rfl, hs⟩, h.ccnt, h.lim⟩, rfl,
      by simp [ahead, hav]⟩
  · next r rs hs =>
    have heof : a.lch ≠ .eof := fun he => by simpa [hs] using (h.eof he).2
    refine ⟨⟨?_, h.bc, fun he => absurd he heof, h.ccnt, h.lim⟩, rfl, by simp [ahead, hav, hs]⟩
    by_cases hr : r = [] <;> simp [hr]

theorem Sound.take {a : Abuf} (h : a.Sound) {k : Nat} (hk : k ≤ a.avail.length) (hfit : a.Fits k) :
    ({ a with avail := a.avail.drop k, ccnt := a.ccnt + k, bc := false } : Abuf).Sound ∧
    a.ahead = a.avail.take k ++
      ({ a with avail := a.avail.drop k, ccnt := a.ccnt + k, bc := false } : Abuf).ahead := by
  have hlim := h.lim
  have hc := h.ccnt
  constructor
  · refine ⟨?_, by simp, fun he => ?_, by simp only; omega,
      hfit.imp_right fun hf => by simp only; omega⟩
    · exact h.erc.imp_right fun he => ⟨by simp [he.1], he.2⟩
    · exact ⟨by simp [(h.eof he).1], (h.eof he).2⟩
  · unfold ahead
    simp only
    split
    · rw [← List.append_assoc, List.take_append_drop]
    · next hneg =>
      obtain hf | hf := hfit
      · exact absurd hf hneg
      · obtain ⟨m, hm⟩ : ∃ m : Nat, a.lim - a.ccnt = k + m := ⟨(a.lim - a.ccnt - k).toNat, by omega⟩
        have hm' : a.lim - (a.ccnt + k) = m := by omega
        rw [hm, hm']
        have hlen : (a.avail.take k).length = k := by simp [hk]
        calc (a.avail ++ a.src.flatten).take (k + m)
            = (a.avail.take k ++ (a.avail.drop k ++ a.src.flatten)).take (k + m) := by
              rw [← List.append_assoc, List.take_append_drop]
          _ = _ := by
              rw [List.take_append]
              simp [hlen, List.take_of_length_le]

/-- Nothing is lost, added or read past the limit between `a` and `a'` but `out`. -/
structure Delivers (a : Abuf) (out : Str) (a' : Abuf) : Prop where
  sound : a'.Sound
  bytes : a.pushed ++ a.ahead = out ++ (a'.pushed ++ a'.ahead)

theorem Delivers.refl {a : Abuf} (h : a.Sound) : a.Delivers [] a := ⟨h, rfl⟩

theorem Delivers.trans {a b c : Abuf} {s t : Str} (h : a.Delivers s b) (h' : b.Delivers t c) :
    a.Delivers (s ++ t) c := ⟨h'.sound, by rw [h.bytes, h'.bytes, List.append_assoc]⟩

theorem Sound.pushed_eq {a : Abuf} (h : a.Sound) (hav : a.avail ≠ []) :
    a.pushed = if a.bc then [a.lchChar] else [] := by
  have heof : a.lch ≠ .eof := fun he => hav (h.eof he).1
  cases hbc : a.bc with
  | false => simp [pushed, hbc]
  | true =>
    cases hl : a.lch with
    | byte b => simp [pushed, hbc, hl, lchChar]
    | eof => exact absurd hl heof
    | wait => exact absurd hl (h.bc hbc)

theorem Sound.flush {a : Abuf} (h : a.Sound) {n : Nat}
    (hfit : a.Fits (min (n - a.bc.toNat) a.ready.length)) :
    a.Delivers (a.flush n).1 (a.flush n).2 ∧ (a.flush n).1.length ≤ n ∧
    ((a.flush n).1.length < n → (a.flush n).2.avail = []) ∧
    (a.flush n).2.Fits
      (min (n - (a.flush n).1.length - (a.flush n).2.bc.toNat) (a.flush n).2.ready.length) := by
  unfold Abuf.flush
  split
  · next h0 =>
    refine ⟨.refl h, Nat.zero_le n, fun hn => ?_, by simpa using hfit⟩
    obtain rfl | h0 := h0
    · exact absurd hn (by simp)
    · exact h0
  · next h0 =>
    obtain ⟨hn, hav⟩ := not_or.1 h0
    have hback := h.pushed_eq hav
    have hlen : (if a.bc then [a.lchChar] else []).length = a.bc.toNat := by cases a.bc <;> rfl
    have hbc : a.bc.toNat ≤ 1 := a.bc.toNat_le
    rw [← hback] at hlen ⊢
    simp only [hlen, List.length_take]
    -- the number of bytes the region gives
    obtain ⟨k, hk⟩ : ∃ k, k = min (n - a.bc.toNat) a.avail.length := ⟨_, rfl⟩
    have htake : a.avail.take (n - a.bc.toNat) = a.avail.take k := by
      rw [hk, List.take_eq_take_min]
    have hdrop : a.avail.drop (n - a.bc.toNat) = a.avail.drop k := by
      rw [hk, List.drop_eq_drop_min]
    have hready : a.ready.length = a.avail.length + (a.src.takeWhile (· ≠ [])).flatten.length := by
      simp [ready]
    have hkav : k ≤ a.avail.length := hk ▸ Nat.min_le_right _ _
    have hkle : k ≤ min (n - a.bc.toNat) a.ready.length :=
      Nat.le_min.2 ⟨hk ▸ Nat.min_le_left _ _, hready ▸ Nat.le_add_right_of_le hkav⟩
    obtain ⟨hs, hb⟩ := h.take hkav (hfit.mono hkle)
    rw [htake, hdrop, ← hk]
    refine ⟨⟨hs, ?_⟩, ?_, fun hlt => ?_, ?_⟩
    · rw [hb]
      simp [pushed]
    · simp only [List.length_append, hlen, List.length_take]
      omega
    · simp only [List.length_append, hlen, List.length_take] at hlt
      exact List.drop_of_length_le (by omega)
    · simp only [List.length_append, hlen, List.length_take, Bool.toNat_false, ready,
        List.length_drop]
      refine hfit.imp_right fun hf => ?_
      rw [Nat.min_eq_left hkav, Nat.sub_zero, ← Nat.sub_sub, ← Nat.sub_add_comm hkav,
        Nat.sub_min_sub_right, ← hready]
      generalize min (n - a.bc.toNat) a.ready.length = m at hf hkle ⊢
      dsimp only
      omega

theorem ready_moredata {a : Abuf} (hav : a.avail = []) (hok : a.moredata.erc = .ok) :
    a.moredata.ready = a.ready := by
  unfold moredata at hok ⊢
  split at hok
  · simp at hok
  · next r rs hs =>
    have hr : r ≠ [] := fun hr => by simp [hr] at hok
    simp [ready, hav, hs, hr]

theorem fits_moredata {a : Abuf} {n : Nat} : a.moredata.Fits n ↔ a.Fits n := by
  unfold moredata Fits
  split <;> rfl

theorem Sound.dumpLoop {a : Abuf} (h : a.Sound) {n : Nat}
    (hfit : a.erc = .ok → a.Fits (min (n - a.bc.toNat) a.ready.length)) :
    a.Delivers (a.dumpLoop n).1 (a.dumpLoop n).2 := by
  fun_induction Abuf.dumpLoop n a with
  | case1 n a hn out a' hleft r ih =>
    obtain ⟨hd, hle, hav, hf⟩ := h.flush (hfit hn.2)
    have hav' : a'.avail = [] := hav (by simp only [out] at hleft; omega)
    obtain ⟨hs, hp, ha⟩ := hd.sound.moredata hav'
    have hmore : a'.Delivers [] a'.moredata := ⟨hs, by rw [hp, ha]; rfl⟩
    have hd' := ih hs fun hok => by
      rw [fits_moredata, ready_moredata hav' hok]
      have hbc : a'.moredata.bc = a'.bc := by unfold Abuf.moredata; split <;> rfl
      rw [hbc]
      exact hf
    exact hd.trans (hmore.trans hd')
  | case2 n a hn out a' hleft => exact (h.flush (hfit hn.2)).1
  | case3 n a hn => exact .refl h

theorem flush_length_le (n : Nat) (a : Abuf) : (a.flush n).1.length ≤ n := by
  unfold flush
  split
  · exact Nat.zero_le n
  · next h =>
    have hn : n ≠ 0 := fun hn => h (.inl hn)
    simp only [List.length_append, List.length_take]
    split
    · rw [List.length_singleton]
      omega
    · rw [List.length_nil]
      omega

theorem dumpLoop_length (n : Nat) (a : Abuf) :
    (a.dumpLoop n).1.length = n ∨ (a.dumpLoop n).2.erc ≠ .ok := by
  fun_induction Abuf.dumpLoop n a with
  | case1 n a hn out a' hleft r ih =>
    refine ih.imp_left fun hl => ?_
    simp only [List.length_append, r, hl]
    omega
  | case2 n a hn out a' hleft =>
    have hle : out.length ≤ n := a.flush_length_le n
    exact .inl (by simp only; omega)
  | case3 n a hn =>
    rcases Nat.eq_zero_or_pos n with rfl | hpos
    · exact .inl rfl
    · exact .inr fun hok => hn ⟨hpos, hok⟩

theorem Sound.errchar_eof {a : Abuf} (h : a.Sound) (he : a.getErrchar = some .eof) :
    a.ahead = [] := by
  unfold getErrchar at he
  split at he
  · next hl =>
    have hz : (a.lim - a.ccnt).toNat = 0 := by omega
    have hneg : ¬ a.lim < 0 := by omega
    simp [ahead, hneg, hz]
  · split at he
    · next herc =>
      have := h.erc
      simp only [herc, reduceCtorEq, false_or, true_and] at this
      simp [ahead, this]
    · simp at he
    · simp at he

theorem errchar_cases (a : Abuf) :
    a.getErrchar = some .eof ∨ a.getErrchar = some .wait ∨ a.getErrchar = none := by
  unfold getErrchar
  split
  · exact .inl rfl
  · split <;> simp

theorem Sound.errchar_none {a : Abuf} (h : a.Sound) (he : a.getErrchar = none) : a.erc = .ok := by
  obtain hok | ⟨-, hw | ⟨hw, -⟩⟩ := h.erc
  · exact hok
  · unfold getErrchar at he
    split at he <;> simp [hw] at he
  · unfold getErrchar at he
    split at he <;> simp [hw] at he

/-- The bytes `stream` hands out when nothing is pushed back. -/
def chunk (a : Abuf) : Str := if a.avail = [] then a.src.headD [] else a.avail

theorem moredata_avail (a : Abuf) : a.moredata.avail = a.src.headD [] := by
  unfold moredata
  split <;> simp [*]

theorem pushed_of_bc {a : Abuf} (h : a.bc = false) : a.pushed = [] := by simp [pushed, h]

theorem pushed_ne_nil {a : Abuf} (h : a.pushed ≠ []) : ∃ b, a.lch = .byte b ∧ a.pushed = [b] := by
  unfold pushed at h ⊢
  split <;> simp_all

end Abuf

inductive BulkCall
  | dump (len : Nat)
  | stream
  | canRead

namespace BulkCall

open Abuf

def exec (a : Abuf) : BulkCall → Bulk × Abuf
  | .dump len => a.dump len
  | .stream => a.stream
  | .canRead => (.data [], a.canRead)

/-- A `dump` that finds the end must have nothing pushed back, and neither call may find more
bytes than the limit allows; `stream` cannot hand back what its assertion rejects. -/
def Safe (a : Abuf) : BulkCall → Prop
  | .dump len => (a.getErrchar = some .eof → a.pushed = []) ∧
      (a.getErrchar = none → a.Fits (min (len - a.bc.toNat) a.ready.length))
  | .stream => (a.bc = true → a.pushed ≠ [] ∧ ∀ b ∈ a.pushed, b < 128) ∧
      (a.bc = false → a.getErrchar = none → a.Fits a.chunk.length)
  | .canRead => True

instance (a : Abuf) : DecidablePred (Safe a)
  | .dump _ => inferInstanceAs (Decidable ((_ → _) ∧ (_ → _)))
  | .stream => inferInstanceAs (Decidable ((_ → _ ∧ _) ∧ (_ → _ → _)))
  | .canRead => instDecidableTrue

/-- What a safe call does: it hands out the next bytes, and says that there are no more
only when there are none. -/
structure Answers (a : Abuf) (r : Bulk × Abuf) : Prop where
  delivers : a.Delivers r.1.bytes r.2
  eof : r.1 = .eof → a.pushed ++ a.ahead = []
  abort : r.1 ≠ .abort

theorem answers_dump {a : Abuf} (h : a.Sound) {len : Nat} (hq : Safe a (.dump len)) :
    Answers a (a.dump len) := by
  obtain ⟨heof, hfit⟩ := hq
  unfold Abuf.dump
  obtain he | he | he := a.errchar_cases <;> rw [he]
  · exact ⟨.refl h, fun _ => by rw [heof he, h.errchar_eof he]; rfl, by simp⟩
  · exact ⟨.refl h, by simp, by simp⟩
  · exact ⟨h.dumpLoop fun _ => hfit he, by simp, by simp⟩

theorem answers_region {a : Abuf} (h : a.Sound) (hbc : a.bc = false)
    (hfit : a.Fits a.avail.length) :
    a.Delivers a.avail { a with avail := [], ccnt := a.ccnt + a.avail.length } := by
  obtain ⟨hs, hb⟩ := h.take (Nat.le_refl _) hfit
  simp only [List.drop_length, List.take_length, ← hbc] at hs hb
  exact ⟨hs, by rw [pushed_of_bc hbc, pushed_of_bc (by simpa using hbc), hb]; rfl⟩

theorem answers_stream {a : Abuf} (h : a.Sound) (hq : Safe a .stream) : Answers a a.stream := by
  obtain ⟨hback, hfit⟩ := hq
  unfold Abuf.stream
  split
  · next hbc =>
    obtain ⟨hne, hlt⟩ := hback hbc
    obtain ⟨b, hb, hp⟩ := pushed_ne_nil hne
    have hb128 : b < 128 := hlt b (by simp [hp])
    rw [hb]
    simp only [hb128, if_true]
    refine ⟨⟨⟨h.erc, by simp, by simp, h.ccnt, h.lim⟩, ?_⟩, by simp, by simp⟩
    rw [hp, pushed_of_bc rfl]
    rfl
  · next hbc =>
    have hbc : a.bc = false := by simpa using hbc
    obtain he | he | he := a.errchar_cases <;> rw [he]
    · exact ⟨.refl h, fun _ => by rw [pushed_of_bc hbc, h.errchar_eof he]; rfl, by simp⟩
    · exact ⟨.refl h, by simp, by simp⟩
    · have hfit := hfit hbc he
      by_cases hav : a.avail = []
      · obtain ⟨hs, hp, ha⟩ := h.moredata hav
        have hmore : a.Delivers [] a.moredata := ⟨hs, by rw [hp, ha]; rfl⟩
        have hmbc : a.moredata.bc = false := by unfold Abuf.moredata; split <;> exact hbc
        simp only [hav, if_true]
        obtain hm | hm | hm := a.moredata.errchar_cases <;> rw [hm]
        · exact ⟨hmore, fun _ => by rw [hmore.bytes, pushed_of_bc hmbc, hs.errchar_eof hm]; rfl,
            by simp⟩
        · exact ⟨hmore, by simp, by simp⟩
        · simp only [if_pos (hs.errchar_none hm)]
          refine ⟨hmore.trans (answers_region hs hmbc ?_), by simp, by simp⟩
          rw [fits_moredata, moredata_avail]
          simpa [chunk, hav] using hfit
      · simp only [hav, if_false, if_pos (h.errchar_none he)]
        exact ⟨answers_region h hbc (by simpa [chunk, hav] using hfit), by simp, by simp⟩

theorem Safe.answers {a : Abuf} (h : a.Sound) {q : BulkCall} (hq : q.Safe a) :
    Answers a (q.exec a) := by
  cases q with
  | dump len => exact answers_dump h hq
  | stream => exact answers_stream h hq
  | canRead => exact ⟨⟨h.canRead, rfl⟩, by simp [exec], by simp [exec]⟩

def execs : List BulkCall → Abuf → List Bulk × Abuf
  | [], a => ([], a)
  | q :: qs, a =>
    let (o, a') := q.exec a
    let (os, a'') := execs qs a'
    (o :: os, a'')

def SafeAll : List BulkCall → Abuf → Prop
  | [], _ => True
  | q :: qs, a => q.Safe a ∧ SafeAll qs (q.exec a).2

def SafeAll.dec : (qs : List BulkCall) → (a : Abuf) → Decidable (SafeAll qs a)
  | [], _ => instDecidableTrue
  | q :: qs, a =>
    have := dec qs (q.exec a).2
    inferInstanceAs (Decidable (q.Safe a ∧ SafeAll qs (q.exec a).2))

instance (qs : List BulkCall) (a : Abuf) : Decidable (SafeAll qs a) := SafeAll.dec qs a

theorem SafeAll.delivers {qs : List BulkCall} {a : Abuf} (h : a.Sound) (hq : SafeAll qs a) :
    a.Delivers ((execs qs a).1.flatMap Bulk.bytes) (execs qs a).2 ∧ .abort ∉ (execs qs a).1 ∧
    (.eof ∈ (execs qs a).1 → (execs qs a).1.flatMap Bulk.bytes = a.pushed ++ a.ahead) := by
  induction qs generalizing a with
  | nil => exact ⟨.refl h, by simp [execs], by simp [execs]⟩
  | cons q qs ih =>
    have hans := hq.1.answers h
    obtain ⟨hd, hab, heof⟩ := ih hans.delivers.sound hq.2
    refine ⟨hans.delivers.trans hd, ?_, fun hmem => ?_⟩
    · simp only [execs, List.mem_cons, not_or]
      exact ⟨hans.abort.symm, hab⟩
    · simp only [execs, List.mem_cons] at hmem
      simp only [execs, List.flatMap_cons]
      obtain hmem | hmem := hmem
      · have hnil := hans.eof hmem.symm
        have hb := (hans.delivers.trans hd).bytes
        rw [hnil] at hb ⊢
        simp only [List.nil_eq, List.append_eq_nil_iff] at hb
        simp [hb.1]
      · rw [hans.delivers.bytes, heof hmem]

end BulkCall

/-- In a sequence of safe bulk reads, what they return and what `get` would still return is
what `get` would have returned; an end is only reported when everything has been returned,
and a `dump` comes back short only from a source that has stopped. -/
theorem Abuf.execs_drain {rs : List Str} {a : Abuf} (ha : Reachable rs a) (qs : List BulkCall)
    (h : BulkCall.SafeAll qs a) :
    a.drain = (BulkCall.execs qs a).1.flatMap Bulk.bytes ++ (BulkCall.execs qs a).2.drain ∧
    .abort ∉ (BulkCall.execs qs a).1 ∧
    (.eof ∈ (BulkCall.execs qs a).1 → (BulkCall.execs qs a).1.flatMap Bulk.bytes = a.drain) ∧
    (∀ len s b, (BulkCall.execs qs a).2.dump len = (.data s, b) → s.length = len ∨
      b.erc ≠ .ok) := by
  obtain ⟨hd, hab, heof⟩ := h.delivers ha.sound
  rw [drain_eq ha.sound, drain_eq hd.sound]
  refine ⟨hd.bytes, hab, heof, fun len s b hdump => ?_⟩
  unfold dump at hdump
  obtain he | he | he := (BulkCall.execs qs a).2.errchar_cases <;>
    simp only [he, Prod.mk.injEq, reduceCtorEq, false_and] at hdump
  obtain ⟨hs, rfl⟩ := hdump
  cases hs
  exact dumpLoop_length len _

/-- A character pushed back in front of a wait and a limit in the middle of a region. -/
theorem Abuf.execs_drain_pushed :
    ((({ src := [[97], [], [98, 99]] } : Abuf).setlim 3).get.2.unget.drain = [97, 98, 99]) ∧
    (BulkCall.execs [.dump 2, .canRead, .dump 2, .stream, .dump 1]
      (({ src := [[97], [], [98, 99]] } : Abuf).setlim 3).get.2.unget).1.flatMap Bulk.bytes =
      (({ src := [[97], [], [98, 99]] } : Abuf).setlim 3).get.2.unget.drain := by
  have h : BulkCall.SafeAll [.dump 2, .canRead, .dump 2, .stream, .dump 1]
      (({ src := [[97], [], [98, 99]] } : Abuf).setlim 3).get.2.unget := by decide +kernel
  refine ⟨by decide +kernel, ?_⟩
  exact (execs_drain (((Reachable.start).setlim 3).get.unget) _ h).2.2.1 (by decide +kernel)

/-- The last byte before the end is lost when it is pushed back, and bytes behind the limit
come out of a region that reaches past it. -/
theorem Abuf.execs_lost :
    (({ src := [[97]] } : Abuf).get.2.unget.drain = [97] ∧
      (BulkCall.execs [.dump 8, .dump 8] ({ src := [[97]] } : Abuf).get.2.unget).1 =
        [.data [], .eof]) ∧
    ((({ src := [[97, 98]] } : Abuf).setlim 1).drain = [97] ∧
      (BulkCall.execs [.dump 8] (({ src := [[97, 98]] } : Abuf).setlim 1)).1 =
        [.data [97, 98]]) := by
  decide +kernel

end Okws
