import Okws.Whole
import Okws.CgiFrag

namespace Okws

open Lib

namespace CgiMode

def isCookie : CgiMode → Bool
  | .cookie => true
  | _ => false

def isUri : CgiMode → Bool
  | .uri => true
  | _ => false

end CgiMode

/-- What a key or a value is made of, and what stands between them.  A blank that is not written
as an escape is told apart from the rest. -/
inductive CgiTok
  | text (blank : Bool) (s : Str)
  | sep
  | bind
  deriving DecidableEq

/-- What a character outside of an escape stands for; `none` is the end. -/
def plainTok (m : CgiMode) (c : UInt8) : Option CgiTok :=
  if c = 38 then some (if m.isCookie then .text false [c] else .sep)
  else if c = 61 then some .bind
  else if c = 59 then some (if m.isCookie then .sep else .text false [c])
  else if c = Byte.cr then
    if m.isUri then none else some (.text false (if m.isCookie then [] else [c]))
  else if c = Byte.lf then
    if m.isCookie || m.isUri then none else some (.text false [c])
  else if c = 43 then some (.text false [Byte.sp])
  else if Byte.isHws c then if m.isUri then none else some (.text true [c])
  else some (.text false [c])

inductive CgiLex
  | plain
  | escape (digit : Option UInt8)
  deriving DecidableEq

def lexPlain (m : CgiMode) (c : UInt8) : List CgiTok × Option CgiLex :=
  if c = 37 then ([], some (.escape none))
  else match plainTok m c with
    | none => ([], none)
    | some t => ([t], some .plain)

def lexChar (m : CgiMode) (st : CgiLex) (c : UInt8) : List CgiTok × Option CgiLex :=
  match st with
  | .plain => lexPlain m c
  | .escape x => match x, charToHex c with
    | none, some _ => ([], some (.escape (some c)))
    | some a, some lo =>
      ([.text false [UInt8.ofNat ((charToHex a).getD 0 * 16 + lo)]], some .plain)
    | x, none => (.text false (37 :: x.toList) :: (lexPlain m c).1, (lexPlain m c).2)

/-- The tokens of `B`; an escape that the input ends in is dropped. -/
def lex (m : CgiMode) : CgiLex → Str → List CgiTok
  | _, [] => []
  | st, c :: B => (lexChar m st c).1 ++
    match (lexChar m st c).2 with
    | none => []
    | some st' => lex m st' B

structure CgiField where
  key : Str
  val : Option Str
  deriving DecidableEq

def CgiField.close (text : Str) : Option Str → CgiField
  | none => ⟨text, none⟩
  | some k => ⟨k, some text⟩

/-- Where the characters of a key or a value go: `put` says besides whether the reader has to
begin again. -/
structure CgiStore (β : Type) where
  put : β → Str → β × Bool
  fresh : β → β
  text : β → Str

structure CgiReading (β : Type) where
  key : Option Str
  skip : Bool
  buf : β

namespace CgiStore

variable {β : Type} (S : CgiStore β) (m : CgiMode)

def put' (r : CgiReading β) (s : Str) : CgiReading β where
  key := r.key
  skip := (S.put r.buf s).2 && m.isCookie && r.key.isNone
  buf := (S.put r.buf s).1

/-- The blanks in front of a key of a cookie are skipped. -/
def step (r : CgiReading β) : CgiTok → Option CgiField × CgiReading β
  | .text blank s => (none, if r.skip && blank then r else S.put' m r s)
  | .sep => (some (.close (S.text r.buf) r.key), ⟨none, m.isCookie, S.fresh r.buf⟩)
  | .bind => (none, match r.key with
    | none => ⟨some (S.text r.buf), false, S.fresh r.buf⟩
    | some _ => S.put' m r [61])

def read : CgiReading β → List CgiTok → List CgiField
  | r, [] => [.close (S.text r.buf) r.key]
  | r, t :: ts => (S.step m r t).1.toList ++ read (S.step m r t).2 ts

def after (r : CgiReading β) (ts : List CgiTok) : CgiReading β :=
  ts.foldl (fun r t => (S.step m r t).2) r

theorem after_cons (r : CgiReading β) (t : CgiTok) (ts : List CgiTok) :
    S.after m r (t :: ts) = S.after m (S.step m r t).2 ts := rfl

end CgiStore

def CgiStore.whole : CgiStore Str where
  put b s := (b ++ s, false)
  fresh _ := []
  text b := b

/-- The keys and values of `B`, completely decoded. -/
def cgiFields (m : CgiMode) (B : Str) : List CgiField :=
  CgiStore.whole.read m ⟨none, m.isCookie, []⟩ (lex m .plain B)

namespace CgiConfig

variable (cfg : CgiConfig)

/-- The length of the area behind a character, if it has held `n` bytes. -/
def grow (cap n : Nat) : Nat :=
  if cap ≤ n ∧ cap < cfg.limit then min (cap * 2) cfg.limit else cap

/-- The digit of an escape that is not complete needs more room than the escape. -/
def putText (w : Word) (s : Str) : Word :=
  cfg.room { w with
    text := w.text ++ if s.length = 2 ∧ w.cap - w.text.length ≤ 2 then s.take 1 else s }

/-- The scratch area: what has filled it is thrown away. -/
def store : CgiStore Word where
  put w s :=
    if (cfg.putText w s).full then ({ cfg.putText w s with text := [] }, true)
    else (cfg.putText w s, false)
  fresh w := { w with text := [] }
  text w := cfg.filter w.text

/-- The lengths only, of the area and of what is in it; `none` when there has not been enough
room for something. -/
def lengths : CgiStore (Option (Nat × Nat)) where
  put b s := (b.bind fun (cap, n) =>
    if s.length = 2 ∧ cap - n ≤ 2 ∨ cfg.grow cap (n + s.length) ≤ n + s.length then none
    else some (cfg.grow cap (n + s.length), n + s.length), false)
  fresh b := b.map fun (cap, _) => (cap, 0)
  text _ := []

/-- A scratch area that begins with `cap` bytes has room for every key and every value of `B`. -/
def fits (m : CgiMode) (cap : Nat) (B : Str) : Bool :=
  (cfg.lengths.after m ⟨none, m.isCookie, some (cap, 0)⟩ (lex m .plain B)).buf.isSome

end CgiConfig

section Compare

variable {cfg : CgiConfig} {m : CgiMode} {w : Word} {s : Str}

theorem room_cap (w : Word) : (cfg.room w).cap = cfg.grow w.cap w.text.length := by
  unfold CgiConfig.room CgiConfig.extendScratch CgiConfig.grow
  by_cases hfull : w.cap ≤ w.text.length
  · by_cases hlim : w.cap < cfg.limit <;> simp [hfull, hlim]
  · simp [hfull]

theorem room_hex (w : Word) : (cfg.room w).hex = w.hex := by
  unfold CgiConfig.room CgiConfig.extendScratch
  split
  · split <;> rfl
  · rfl

theorem le_grow (cap n : Nat) : cap ≤ cfg.grow cap n := by
  unfold CgiConfig.grow
  split
  · omega
  · exact Nat.le_refl _

theorem putText_cap : (cfg.putText w s).cap = cfg.grow w.cap (cfg.putText w s).text.length := by
  rw [CgiConfig.putText, room_cap, room_text]

theorem length_putText : (cfg.putText w s).text.length ≤ w.text.length + s.length := by
  rw [CgiConfig.putText, room_text, List.length_append]
  split
  · simp only [List.length_take]
    omega
  · omega

def CgiField.map (f : Str → Str) (x : CgiField) : CgiField := ⟨f x.key, x.val.map f⟩

def SameSide {β γ : Type} (r : CgiReading β) (u : CgiReading γ) : Prop :=
  r.key.isNone = u.key.isNone

theorem SameSide.step {β γ : Type} {S : CgiStore β} {U : CgiStore γ} {r : CgiReading β}
    {u : CgiReading γ} (h : SameSide r u) (t : CgiTok) :
    SameSide (S.step m r t).2 (U.step m u t).2 ∧
      (S.step m r t).1.toList.length = (U.step m u t).1.toList.length := by
  cases t with
  | text blank s =>
    refine ⟨?_, rfl⟩
    simp only [CgiStore.step]
    split <;> split <;> exact h
  | sep => exact ⟨rfl, rfl⟩
  | bind =>
    refine ⟨?_, rfl⟩
    unfold SameSide at h ⊢
    cases hr : r.key <;> cases hu : u.key <;>
      simp [hr, hu, CgiStore.step, CgiStore.put'] at h ⊢

theorem length_read {β γ : Type} {S : CgiStore β} {U : CgiStore γ} {r : CgiReading β}
    {u : CgiReading γ} (h : SameSide r u) (ts : List CgiTok) :
    (S.read m r ts).length = (U.read m u ts).length := by
  induction ts generalizing r u with
  | nil => rfl
  | cons t ts ih =>
    obtain ⟨hstep, hlen⟩ := h.step (S := S) (U := U) (m := m) t
    rw [CgiStore.read, CgiStore.read, List.length_append, List.length_append, hlen, ih hstep]

/-- At least `d` characters of the field that is being read are missing. -/
structure Behind (d : Nat) (r : CgiReading Word) (u : CgiReading Str) : Prop where
  side : SameSide r u
  skip : u.skip = true → r.skip = true
  missing : (r.key.getD []).length + r.buf.text.length + d ≤ (u.key.getD []).length + u.buf.length

variable {r : CgiReading Word} {u : CgiReading Str} {d : Nat}

theorem Behind.put (h : Behind d r u) (s : Str) :
    Behind d (cfg.store.put' m r s) (CgiStore.whole.put' m u s) := by
  refine ⟨h.side, nofun, ?_⟩
  have hmissing := h.missing
  have hlen : (cfg.putText r.buf s).text.length ≤ r.buf.text.length + s.length := length_putText
  simp only [CgiStore.put', CgiConfig.store, CgiStore.whole, List.length_append]
  split
  · simp only [List.length_nil]
    omega
  · simp only
    omega

def weight (xs : List CgiField) : Nat :=
  (xs.map fun x => x.key.length + (x.val.getD []).length).sum

theorem weight_cons (x : CgiField) (xs : List CgiField) :
    weight (x :: xs) = x.key.length + (x.val.getD []).length + weight xs := rfl

theorem weight_close (s : Str) (k : Option Str) (xs : List CgiField) :
    weight (CgiField.close s k :: xs) = (k.getD []).length + s.length + weight xs := by
  cases k <;> simp [weight_cons, CgiField.close]

theorem Behind.weight_read (hraw : ∀ s, cfg.filter s = s) (h : Behind d r u) (ts : List CgiTok) :
    weight (cfg.store.read m r ts) + d ≤ weight (CgiStore.whole.read m u ts) := by
  have htext (r : CgiReading Word) : cfg.store.text r.buf = r.buf.text := hraw r.buf.text
  have hmissing := h.missing
  induction ts generalizing r u d with
  | nil =>
    rw [CgiStore.read, CgiStore.read, weight_close, weight_close, htext]
    simp only [CgiStore.whole]
    omega
  | cons t ts ih =>
    have hput (s : Str) : weight (cfg.store.read m (cfg.store.put' m r s) ts) + d ≤
        weight (CgiStore.whole.read m (CgiStore.whole.put' m u s) ts) :=
      ih (h.put s) (@Behind.put cfg m r u d h s).missing
    cases t with
    | text blank s =>
      have hskip := h.skip
      simp only [CgiStore.read, CgiStore.step, Option.toList_none, List.nil_append]
      cases hr : r.skip && blank with
      | true =>
        cases hu : u.skip && blank with
        | true => exact ih h hmissing
        | false =>
          have hgrown : Behind d r (CgiStore.whole.put' m u s) := by
            refine ⟨h.side, nofun, ?_⟩
            simp only [CgiStore.put', CgiStore.whole, List.length_append]
            omega
          exact ih hgrown hgrown.missing
      | false =>
        have hu : (u.skip && blank) = false := by
          cases hus : u.skip with
          | false => rfl
          | true =>
            rw [hskip hus] at hr
            exact hr
        rw [hu]
        exact hput s
    | sep =>
      simp only [CgiStore.read, CgiStore.step, Option.toList_some, List.cons_append,
        List.nil_append]
      rw [weight_close, weight_close, htext]
      have hnext := ih (r := ⟨none, m.isCookie, cfg.store.fresh r.buf⟩)
        (u := ⟨none, m.isCookie, CgiStore.whole.fresh u.buf⟩) (d := 0) ⟨rfl, id, Nat.le_refl _⟩
        (Nat.le_refl _)
      simp only [CgiStore.whole] at hnext ⊢
      omega
    | bind =>
      have hside := h.side
      unfold SameSide at hside
      simp only [CgiStore.read, CgiStore.step, Option.toList_none, List.nil_append]
      cases hr : r.key <;> cases hu : u.key <;> simp only [hr, hu] at hside hmissing ⊢
      · refine ih ⟨rfl, nofun, ?_⟩ ?_
        all_goals
          rw [htext]
          simpa [CgiStore.whole, CgiConfig.store] using hmissing
      · cases hside
      · cases hside
      · exact hput [61]

variable (cfg) in
structure Same (r : CgiReading Word) (u : CgiReading Str) (b : CgiReading (Option (Nat × Nat))) :
    Prop where
  key : r.key = u.key.map cfg.filter
  side : SameSide b u
  skip : r.skip = u.skip
  skip' : b.skip = u.skip
  text : r.buf.text = u.buf
  lengths : b.buf = some (r.buf.cap, u.buf.length)
  room : r.buf.full = false

variable {b : CgiReading (Option (Nat × Nat))}

theorem Same.sameSide (h : Same cfg r u b) : SameSide r u := by
  rw [SameSide, h.key]
  cases u.key <;> rfl

theorem lost_put (h : b.buf = none) (s : Str) : (cfg.lengths.put' m b s).buf = none := by
  simp [CgiStore.put', CgiConfig.lengths, h]

theorem lost_step (h : b.buf = none) (t : CgiTok) : (cfg.lengths.step m b t).2.buf = none := by
  cases t with
  | text blank s =>
    simp only [CgiStore.step]
    split
    · exact h
    · exact lost_put h s
  | sep => simp [CgiStore.step, CgiConfig.lengths, h]
  | bind =>
    simp only [CgiStore.step]
    split
    · simp [CgiConfig.lengths, h]
    · exact lost_put h [61]

theorem lost_after (h : b.buf = none) (ts : List CgiTok) :
    (cfg.lengths.after m b ts).buf = none := by
  induction ts generalizing b with
  | nil => exact h
  | cons t ts ih => exact ih (lost_step h t)

theorem Same.put (h : Same cfg r u b) (s : Str) :
    Same cfg (cfg.store.put' m r s) (CgiStore.whole.put' m u s) (cfg.lengths.put' m b s) ∨
      (cfg.lengths.put' m b s).buf = none ∧ ((∀ s, cfg.filter s = s) →
        Behind 1 (cfg.store.put' m r s) (CgiStore.whole.put' m u s)) := by
  have hkey (hraw : ∀ s, cfg.filter s = s) : r.key = u.key := by
    rw [h.key, show cfg.filter = id from funext hraw, Option.map_id_fun, id_eq]
  have hn : u.buf.length < r.buf.cap := by
    simpa [Word.full, h.text] using h.room
  have hbuf : (cfg.lengths.put' m b s).buf =
      if s.length = 2 ∧ r.buf.cap - u.buf.length ≤ 2 ∨
        cfg.grow r.buf.cap (u.buf.length + s.length) ≤ u.buf.length + s.length then none
      else some (cfg.grow r.buf.cap (u.buf.length + s.length), u.buf.length + s.length) := by
    simp [CgiStore.put', CgiConfig.lengths, h.lengths]
  have hfull : (cfg.putText r.buf s).full =
      decide (cfg.grow r.buf.cap (cfg.putText r.buf s).text.length ≤
        (cfg.putText r.buf s).text.length) := by
    rw [Word.full, putText_cap]
  have hgrow : r.buf.cap ≤ cfg.grow r.buf.cap (u.buf.length + s.length) := le_grow _ _
  rw [hbuf]
  by_cases hcut : s.length = 2 ∧ r.buf.cap - u.buf.length ≤ 2
  · -- the digit of an escape that is not complete has found no room
    refine .inr ⟨if_pos (.inl hcut), fun hraw => ⟨h.sameSide, by rintro ⟨⟩, ?_⟩⟩
    have htext : (cfg.putText r.buf s).text = u.buf ++ s.take 1 := by
      rw [CgiConfig.putText, room_text, h.text, if_pos hcut]
    simp only [CgiStore.put', CgiConfig.store, CgiStore.whole, List.length_append, hkey hraw]
    split
    · simp only [List.length_nil]
      omega
    · simp only [htext, List.length_append, List.length_take]
      omega
  · have htext : (cfg.putText r.buf s).text = u.buf ++ s := by
      rw [CgiConfig.putText, room_text, h.text, if_neg hcut]
    rw [htext, List.length_append] at hfull
    by_cases hroom : cfg.grow r.buf.cap (u.buf.length + s.length) ≤ u.buf.length + s.length
    · -- the area is full, and what is in it is thrown away
      refine .inr ⟨if_pos (.inr hroom), fun hraw => ⟨h.sameSide, by rintro ⟨⟩, ?_⟩⟩
      simp only [CgiStore.put', CgiConfig.store, hfull, decide_eq_true hroom, if_true,
        CgiStore.whole, List.length_append, List.length_nil, hkey hraw]
      omega
    · have hstore : cfg.store.put r.buf s = (cfg.putText r.buf s, false) := by
        simp [CgiConfig.store, hfull, hroom]
      refine .inl ⟨h.key, h.side, ?_, ?_, ?_, ?_, ?_⟩
      · simp [CgiStore.put', hstore, CgiStore.whole]
      · simp [CgiStore.put', CgiConfig.lengths, CgiStore.whole]
      · simp [CgiStore.put', hstore, CgiStore.whole, htext]
      · simp only [CgiStore.put', hstore, CgiStore.whole, List.length_append]
        rw [putText_cap, htext, List.length_append]
        exact hbuf.trans (if_neg (not_or.2 ⟨hcut, hroom⟩))
      · simpa [CgiStore.put', hstore, hfull] using hroom

theorem Same.fresh (h : Same cfg r u b) (skip : Bool) (k k' : Option Str)
    (hk : k'.isNone = k.isNone) :
    Same cfg ⟨k.map cfg.filter, skip, cfg.store.fresh r.buf⟩ ⟨k, skip, CgiStore.whole.fresh u.buf⟩
      ⟨k', skip, cfg.lengths.fresh b.buf⟩ where
  key := rfl
  side := hk
  skip := rfl
  skip' := rfl
  text := rfl
  lengths := by simp [CgiConfig.lengths, h.lengths, CgiConfig.store, CgiStore.whole]
  room := by
    have hn := h.room
    simp only [Word.full, decide_eq_false_iff_not] at hn
    exact decide_eq_false (Nat.not_le.2 (Nat.lt_of_le_of_lt (Nat.zero_le _) (Nat.not_le.1 hn)))

theorem read_or_behind (hraw : ∀ s, cfg.filter s = s) (h : Same cfg r u b) (ts : List CgiTok) :
    (cfg.lengths.after m b ts).buf.isSome = true ∧
        cfg.store.read m r ts = CgiStore.whole.read m u ts ∨
      (cfg.lengths.after m b ts).buf = none ∧
        weight (cfg.store.read m r ts) < weight (CgiStore.whole.read m u ts) := by
  have hfilter : cfg.filter = id := funext hraw
  induction ts generalizing r u b with
  | nil =>
    refine .inl ⟨?_, ?_⟩
    · rw [CgiStore.after, List.foldl_nil, h.lengths]
      rfl
    · simp [CgiStore.read, CgiConfig.store, CgiStore.whole, h.text, h.key, hfilter]
  | cons t ts ih =>
    have hput (s : Str) :
        (cfg.lengths.after m (cfg.lengths.put' m b s) ts).buf.isSome = true ∧
            cfg.store.read m (cfg.store.put' m r s) ts =
              CgiStore.whole.read m (CgiStore.whole.put' m u s) ts ∨
          (cfg.lengths.after m (cfg.lengths.put' m b s) ts).buf = none ∧
            weight (cfg.store.read m (cfg.store.put' m r s) ts) <
              weight (CgiStore.whole.read m (CgiStore.whole.put' m u s) ts) := by
      obtain hs | ⟨hlost, hs⟩ := h.put (m := m) s
      · exact ih hs
      · exact .inr ⟨lost_after hlost ts, (hs hraw).weight_read hraw ts⟩
    cases t with
    | text blank s =>
      simp only [CgiStore.read, CgiStore.after, List.foldl_cons, CgiStore.step, h.skip, h.skip',
        Option.toList_none, List.nil_append]
      split
      · exact ih h
      · exact hput s
    | sep =>
      have hclose : CgiField.close (cfg.store.text r.buf) r.key =
          CgiField.close (CgiStore.whole.text u.buf) u.key := by
        simp [CgiConfig.store, CgiStore.whole, h.text, h.key, hfilter]
      rw [CgiStore.after_cons, CgiStore.read, CgiStore.read]
      simp only [CgiStore.step, Option.toList_some, List.cons_append, List.nil_append, hclose,
        List.cons.injEq, true_and, weight_cons]
      exact (ih (h.fresh m.isCookie none none rfl)).imp id fun hlt =>
        ⟨hlt.1, Nat.add_lt_add_left hlt.2 _⟩
    | bind =>
      have hside := h.side
      have hkey := h.key
      unfold SameSide at hside
      rw [CgiStore.after_cons, CgiStore.read, CgiStore.read]
      simp only [CgiStore.step, Option.toList_none, List.nil_append]
      cases hu : u.key with
      | none =>
        rw [hu] at hkey hside
        simp only [hkey, Option.map_none, Option.isNone_iff_eq_none.1 hside]
        have hnext := h.fresh false (some u.buf) (some []) rfl
        have htext : cfg.store.text r.buf = cfg.filter u.buf := congrArg cfg.filter h.text
        rw [htext]
        exact ih hnext
      | some k =>
        rw [hu] at hkey hside
        obtain ⟨k', hk'⟩ : ∃ k', b.key = some k' :=
          Option.isSome_iff_exists.1 (by simpa using hside)
        simp only [hkey, Option.map_some, hk']
        exact hput [61]

theorem grow_le {cap n L : Nat} (hcap : cap ≤ L) (hlim : cfg.limit ≤ L) :
    cfg.grow cap n ≤ L := by
  unfold CgiConfig.grow
  split <;> omega

theorem store_cap_le {L : Nat} (hcap : w.cap ≤ L) (hlim : cfg.limit ≤ L) :
    (cfg.store.put w s).1.cap ≤ L := by
  have hput : (cfg.putText w s).cap ≤ L := by
    rw [putText_cap]
    exact grow_le hcap hlim
  simp only [CgiConfig.store]
  split <;> exact hput

def CgiField.length (x : CgiField) : Nat := max x.key.length (x.val.getD []).length

theorem length_lt_of_fits {L : Nat} (h : Same cfg r u b) (hcap : r.buf.cap ≤ L)
    (hlim : cfg.limit ≤ L) (hkey : ∀ k, u.key = some k → k.length < L) {ts : List CgiTok}
    (hfits : (cfg.lengths.after m b ts).buf.isSome = true) :
    ∀ x ∈ CgiStore.whole.read m u ts, x.length < L := by
  have hbuf (r : CgiReading Word) (u : CgiReading Str) (b : CgiReading (Option (Nat × Nat)))
      (h : Same cfg r u b) (hcap : r.buf.cap ≤ L) : u.buf.length < L := by
    have hroom := h.room
    simp only [Word.full, h.text, decide_eq_false_iff_not] at hroom
    omega
  have hclose (u : CgiReading Str) (hkey : ∀ k, u.key = some k → k.length < L)
      (hlen : u.buf.length < L) : (CgiField.close u.buf u.key).length < L := by
    cases hu : u.key with
    | none => simpa [CgiField.close, CgiField.length] using hlen
    | some k => exact Nat.max_lt.2 ⟨hkey k hu, hlen⟩
  induction ts generalizing r u b with
  | nil =>
    intro x hx
    obtain rfl := List.mem_singleton.1 hx
    exact hclose u hkey (hbuf r u b h hcap)
  | cons t ts ih =>
    rw [CgiStore.after_cons] at hfits
    have hput (s : Str) (hfits : (cfg.lengths.after m (cfg.lengths.put' m b s) ts).buf.isSome) :
        ∀ x ∈ CgiStore.whole.read m (CgiStore.whole.put' m u s) ts, x.length < L := by
      obtain hs | ⟨hlost, -⟩ := h.put (m := m) s
      · exact ih hs (store_cap_le hcap hlim) hkey hfits
      · rw [lost_after hlost] at hfits
        cases hfits
    rw [CgiStore.read]
    cases t with
    | text blank s =>
      simp only [CgiStore.step, h.skip', Option.toList_none, List.nil_append] at hfits ⊢
      split at hfits
      · next hskip =>
        rw [if_pos hskip]
        exact ih h hcap hkey hfits
      · next hskip =>
        rw [if_neg hskip]
        exact hput s hfits
    | sep =>
      simp only [CgiStore.step, Option.toList_some, List.cons_append, List.nil_append,
        List.mem_cons, forall_eq_or_imp]
      exact ⟨hclose u hkey (hbuf r u b h hcap),
        ih (h.fresh m.isCookie none none rfl) hcap (by rintro _ ⟨⟩) hfits⟩
    | bind =>
      have hside := h.side
      unfold SameSide at hside
      simp only [CgiStore.step, Option.toList_none, List.nil_append] at hfits ⊢
      cases hu : u.key with
      | none =>
        rw [hu] at hside
        rw [Option.isNone_iff_eq_none.1 hside] at hfits
        refine ih (h.fresh false (some u.buf) (some []) rfl) hcap (fun k hk => ?_) hfits
        cases hk
        exact hbuf r u b h hcap
      | some k =>
        rw [hu] at hside
        obtain ⟨k', hk'⟩ : ∃ k', b.key = some k' :=
          Option.isSome_iff_exists.1 (by simpa using hside)
        rw [hk'] at hfits
        exact hput [61] hfits

end Compare

end Okws
