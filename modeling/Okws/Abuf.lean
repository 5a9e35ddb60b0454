import Okws.Byte
import Okws.Lib.Scan

/-! `abuf_t`, the character buffer every parser reads from, over a source that
hands out regions of bytes. -/

namespace Okws

open Lib

/-- `abuf_stat_t`. -/
inductive Stat
  | ok | parseErr | eof | overflow | wait | nomatch | continue | complete | separator
  deriving DecidableEq

/-- What `mirror` has set up: the bytes copied so far and the length of the buffer. -/
structure Mirror where
  text : Str
  len : Nat
  deriving DecidableEq

def Mirror.put (m : Mirror) (c : UInt8) : Mirror :=
  if m.text.length < m.len then { m with text := m.text ++ [c] } else m

/-- The members of `abuf_t`.  `src` lists the regions that `getdata` is still going to
return: an empty one is an `ABUF_WAIT`, and after the last one comes `ABUF_EOF`.
`avail` is what lies between `_cp` and `_endp`.  The counter `spcs` is an argument and
a result of `skipHws`, the only function that reads it. -/
structure Abuf where
  src : List Str
  bc : Bool := false
  lch : Ch UInt8 := .byte 0
  avail : Str := []
  erc : Stat := .ok
  lim : Int := -1
  ccnt : Int := 0
  mir : Option Mirror := none
  deriving DecidableEq

namespace Abuf

def moredata (a : Abuf) : Abuf :=
  match a.src with
  | [] => { a with avail := [], erc := .eof }
  | r :: rs => { a with src := rs, avail := r, erc := if r = [] then .wait else .ok }

/-- The macro `ABUF_T_GET_GOT_CHAR`, with `c` at `_cp` and `cs` behind it. -/
def gotChar (a : Abuf) (c : UInt8) (cs : Str) : Ch UInt8 × Abuf :=
  (.byte c, { a with ccnt := a.ccnt + 1, mir := a.mir.map (·.put c), avail := cs, lch := .byte c })

def get (a : Abuf) : Ch UInt8 × Abuf :=
  if a.bc then (a.lch, { a with bc := false })
  else if a.lim = a.ccnt then (.eof, a)
  else match a.avail with
    | c :: cs => a.gotChar c cs
    | [] =>
      let m := if a.erc = .ok then a.moredata else a
      match m.erc, m.avail with
      | .ok, c :: cs => m.gotChar c cs
      | e, _ =>
        let ch := if e = .wait then Ch.wait else .eof
        (ch, { m with lch := ch })

def unget (a : Abuf) : Abuf := if a.lch ≠ .wait then { a with bc := true } else a

def canRead (a : Abuf) : Abuf := { a with erc := .ok }

def setlim (a : Abuf) (l : Int) : Abuf := { a with lim := l, ccnt := 0 }

/-- The number of `get` calls that can still return a byte. -/
def size (a : Abuf) : Nat := a.bc.toNat + a.avail.length + a.src.flatten.length

theorem get_cases (a : Abuf) :
    (a.bc = true ∧ a.get = (a.lch, { a with bc := false })) ∨
    (a.bc = false ∧ a.lim = a.ccnt ∧ a.get = (.eof, a)) ∨
    (a.bc = false ∧ a.lim ≠ a.ccnt ∧
      ((∃ c cs, a.avail = c :: cs ∧ a.get = a.gotChar c cs) ∨
      (∃ c cs rs, a.avail = [] ∧ a.erc = .ok ∧ a.src = (c :: cs) :: rs ∧
        a.get = { a with src := rs }.gotChar c cs) ∨
      (∃ rs, a.avail = [] ∧ a.erc = .ok ∧ a.src = [] :: rs ∧
        a.get = (.wait, { a with src := rs, erc := .wait, lch := .wait })) ∨
      (a.avail = [] ∧ a.erc = .ok ∧ a.src = [] ∧
        a.get = (.eof, { a with erc := .eof, lch := .eof })) ∨
      (a.avail = [] ∧ a.erc = .wait ∧ a.get = (.wait, { a with lch := .wait })) ∨
      (a.avail = [] ∧ a.erc ≠ .ok ∧ a.erc ≠ .wait ∧ a.get = (.eof, { a with lch := .eof })))) := by
  obtain ⟨src, bc, lch, avail, erc, lim, ccnt, mir⟩ := a
  cases bc with
  | true => exact .inl ⟨rfl, rfl⟩
  | false =>
    by_cases hlim : lim = ccnt
    · exact .inr (.inl ⟨rfl, hlim, by simp [get, hlim]⟩)
    · refine .inr (.inr ⟨rfl, hlim, ?_⟩)
      cases avail with
      | cons c cs => exact .inl ⟨c, cs, rfl, by simp [get, hlim]⟩
      | nil =>
        by_cases hok : erc = .ok
        · subst hok
          match src with
          | [] => simp [get, hlim, moredata]
          | [] :: rs => simp [get, hlim, moredata]
          | (c :: cs) :: rs => simp [get, hlim, moredata, gotChar]
        · by_cases hw : erc = .wait
          · simp [get, hlim, hw]
          · simp [get, hlim, hok, hw]

theorem size_get {a a' : Abuf} {b : UInt8} (h : a.get = (.byte b, a')) : a'.size < a.size := by
  obtain ⟨hbc, hg⟩ | ⟨hbc, _, hg⟩ | ⟨hbc, _, ⟨c, cs, hav, hg⟩ | ⟨c, cs, rs, hav, _, hsrc, hg⟩ |
    ⟨_, _, _, _, hg⟩ | ⟨_, _, _, hg⟩ | ⟨_, _, hg⟩ | ⟨_, _, _, hg⟩⟩ := get_cases a <;>
    rw [hg] at h <;> simp only [gotChar, Prod.mk.injEq, reduceCtorEq, false_and] at h <;>
    simp_all [← h.2, size]

def device : Device UInt8 Abuf where
  get := get
  unget := unget
  size := size
  get_size := size_get

end Abuf

section Derived

variable {δ : Type} (D : Device UInt8 δ)

def peek (d : δ) : Ch UInt8 × δ :=
  let (ch, d') := D.get d
  (ch, D.unget d')

def expectchar (c : UInt8) (d : δ) : Stat × δ :=
  match D.get d with
  | (.byte b, d') => if b = c then (.ok, d') else (.nomatch, D.unget d')
  | (.eof, d') => (.eof, D.unget d')
  | (.wait, d') => (.wait, D.unget d')

def requirechar (c : UInt8) (d : δ) : Stat × δ :=
  let (r, d') := expectchar D c d
  (if r = .nomatch then .parseErr else r, d')

def skipWsScanner : Scanner UInt8 Unit Stat where
  guard _ := none
  byte _ b := if Byte.isSpace b then .next () else .back .ok ()
  eof _ := .done .eof ()

def skipWs (d : δ) : Stat × δ :=
  let (r, _, d') := scan D skipWsScanner () d
  (r.getD .wait, d')

def skipHwsScanner (mn : Nat) : Scanner UInt8 Nat Stat where
  guard _ := none
  byte spcs b :=
    if Byte.isHws b then .next (spcs + 1) else .back (if spcs < mn then .parseErr else .ok) 0
  eof spcs := .back (if spcs < mn then .parseErr else .ok) 0

def skipHws (mn spcs : Nat) (d : δ) : Stat × Nat × δ :=
  let (r, spcs', d') := scan D (skipHwsScanner mn) spcs d
  (r.getD .wait, spcs', d')

end Derived

end Okws
