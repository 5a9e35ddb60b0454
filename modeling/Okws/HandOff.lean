import Okws.Ahttpcon

namespace Okws

open Lib

namespace Suiolite

/-- `SUIOLITE_DEF_BUFLEN`. -/
def defBuflen : Nat := 0x10400

/-- The loop of `load_into_xdr`; `op` is the beginning of `o` in every round. -/
def xdrLoop : Nat → Nat → Str → Suiolite → Option (Str × Suiolite)
  | _, 0, o, s => some (o, s)
  | 0, _ + 1, _, _ => none
  | fuel + 1, nbytes + 1, o, s =>
    let ip := s.getdata.take (nbytes + 1)
    (s.rembytes ip.length).bind fun r => xdrLoop fuel (nbytes + 1 - ip.length) (poke o 0 ip) r.2

/-- `load_into_xdr`; the size of the array is not limited. -/
def loadIntoXdr (mem : Nat → UInt8) (s : Suiolite) : Option (Str × Suiolite) :=
  xdrLoop s.resid s.resid (fresh mem s.resid) s

theorem rembytes_len {s s' : Suiolite} {n : Nat} {docall : Bool}
    (h : s.rembytes n = some (docall, s')) : s'.len = s.len := by
  rw [rembytes] at h
  split at h
  · cases h
    split <;> rfl
  · cases h

theorem rembytes_lt {s : Suiolite} {n : Nat} (hn : n ≤ s.resid) (hlt : n < s.bep - s.rp) :
    s.rembytes n = some (s.full && 0 < n && s.scb, { s with rp := s.rp + n }) := by
  rw [rembytes, if_pos hn]
  simp only [if_neg (Nat.not_le.mpr hlt)]

theorem getdata_eq {s : Suiolite} (h0 : s.dep0 = 0) : s.getdata = s.contents := by
  simp [contents, getdata, h0]

theorem xdrLoop_zero (fuel : Nat) (o : Str) (s : Suiolite) : xdrLoop fuel 0 o s = some (o, s) := by
  cases fuel <;> rfl

theorem poke_all {o bs : Str} (h : o.length = bs.length) : poke o 0 bs = bs := by
  rw [poke, List.take_zero, List.nil_append, Nat.zero_add, ← h, List.drop_length, List.append_nil]

theorem Inv.loadIntoXdr {s : Suiolite} (h : s.Inv) (h0 : s.dep0 = 0) (mem : Nat → UInt8) :
    ∃ s', s.loadIntoXdr mem = some (s.contents, s') := by
  have hlen := h.resid_eq
  rw [Suiolite.loadIntoXdr]
  cases hr : s.resid with
  | zero =>
    rw [hr] at hlen
    rw [List.eq_nil_of_length_eq_zero hlen]
    exact ⟨s, rfl⟩
  | succ k =>
    have hall : s.getdata.take (k + 1) = s.contents := by
      rw [getdata_eq h0, List.take_of_length_le (by omega)]
    obtain ⟨docall, s', hrem, -⟩ := h.rembytes (Nat.le_of_eq hlen)
    have hfresh : (fresh mem (k + 1)).length = s.contents.length := by simp [fresh, hlen, hr]
    rw [hlen, hr] at hrem
    refine ⟨s', ?_⟩
    rw [xdrLoop]
    simp only [hall, hlen, hr, hrem, Option.bind_some, Nat.sub_self, xdrLoop_zero, poke_all hfresh]

theorem Inv.loadIntoXdr_wrapped {s : Suiolite} (h : s.Inv) (h0 : s.dep0 ≠ 0) (mem : Nat → UInt8) :
    ∃ s', s.loadIntoXdr mem =
      some (poke (poke (fresh mem s.resid) 0 s.getdata) 0 (slice s.mem 0 s.dep0), s') := by
  have hfull : s.dep1 = s.bep := h.config.resolve_right h0
  have hrp := h.rp
  have hdep := h.dep0
  have hget : s.getdata.length = s.bep - s.rp := by
    rw [getdata, hfull, slice_length (Nat.le_of_eq (h.bep.trans h.mem.symm))]
  have hlow : (slice s.mem 0 s.dep0).length = s.dep0 := by
    rw [slice_length (by rw [h.mem, ← h.bep]; omega), Nat.sub_zero]
  have hres : s.resid = s.getdata.length + s.dep0 := by rw [resid, hfull, hget]
  -- behind `bep` the buffer goes on at its beginning
  let s₁ : Suiolite := { s with rp := 0, dep1 := s.dep0, dep0 := 0 }
  have hrem : s.rembytes s.getdata.length = some (s.full && 0 < s.getdata.length && s.scb, s₁) := by
    rw [Suiolite.rembytes, if_pos (by omega)]
    simp only [hget, Nat.le_refl, if_true, Nat.sub_self, s₁]
  obtain ⟨n, hn⟩ : ∃ n, s.resid = n + 2 := ⟨s.resid - 2, by omega⟩
  have hfirst : s.getdata.take (n + 1 + 1) = s.getdata := List.take_of_length_le (by omega)
  obtain ⟨m, hm⟩ : ∃ m, s.dep0 = m + 1 := ⟨s.dep0 - 1, by omega⟩
  have hleft : n + 1 + 1 - s.getdata.length = m + 1 := by omega
  have hget₁ : s₁.getdata.take s.dep0 = slice s.mem 0 s.dep0 :=
    List.take_of_length_le (Nat.le_of_eq hlow)
  obtain ⟨docall, s', hrem₁⟩ : ∃ docall s', s₁.rembytes s.dep0 = some (docall, s') :=
    ⟨_, _, if_pos (by simp only [resid, s₁]; omega)⟩
  refine ⟨s', ?_⟩
  rw [Suiolite.loadIntoXdr, hn, xdrLoop]
  simp only [hfirst, hrem, Option.bind_some, hleft]
  rw [xdrLoop]
  simp only [hget₁, hlow, hrem₁, Option.bind_some, ← hm, Nat.sub_self, xdrLoop_zero]

theorem load_fresh {l : Nat} (hl : 0 < l) {bs : Str} (hbs : bs.length ≤ maxBuflen) :
    ∃ n s', (alloc l true).loadFromBuffer bs = some (n, s') ∧ s'.Inv ∧ s'.contents = bs ∧
      s'.len ≤ maxBuflen := by
  have h := Inv.alloc hl true
  have hnil : (alloc l true).contents = [] := by simp [contents, alloc]
  have hres : (alloc l true).resid = 0 := rfl
  have hmax {k : Nat} {scb : Bool} : (alloc k scb).len ≤ maxBuflen := Nat.min_le_right _ _
  by_cases hfit : bs.length ≤ (alloc l true).len - (alloc l true).resid
  · obtain ⟨s', hs, hf⟩ := h.load_filled (h.free_eq ▸ hfit)
    obtain ⟨hi, hc⟩ := h.filled hfit hf
    refine ⟨_, s', hs, hi, by rw [hc, hnil, List.nil_append], ?_⟩
    rw [hf.len]
    exact hmax
  · rw [Nat.not_le] at hfit
    have hg : (alloc l true).grow (bs.length + 10) = some { alloc (bs.length + 10) false with
        iov0 := (alloc l true).iov0, iov1 := (alloc l true).iov1 } := if_pos ⟨rfl, rfl⟩
    obtain ⟨hi, -, hz⟩ := grow_inv (Nat.succ_pos _) hg
    obtain ⟨n, s', hs, hf⟩ := grow_filled hfit h.resid_le hg
    have hcap : bs.length ≤ (alloc (bs.length + 10) false).len := by simp only [alloc]; omega
    rw [List.take_of_length_le hcap] at hf
    obtain ⟨hi', hc⟩ := hi.filled (by rw [hz]; exact hcap) hf
    refine ⟨n, s', hs, hi', ?_, ?_⟩
    · rw [hc]
      simp [contents, alloc]
    · rw [hf.len]
      exact hmax

end Suiolite

namespace Ahttpcon

def held (c : Ahttpcon) : Str := c.requestBytes ++ c.uio.contents

/-- `c'` has the bytes of `c`. -/
structure Carries (c c' : Ahttpcon) : Prop where
  ring : c'.uio.Inv
  len : c'.uio.len = c.uio.len
  held : c'.held = c.held
  isClone : c'.isClone = c.isClone
  decloned : c'.decloned = c.decloned

section Bytes

variable {cfg : ConConfig} {c c' c'' : Ahttpcon}

theorem Carries.refl (hi : c.uio.Inv) : Carries c c := ⟨hi, rfl, rfl, rfl, rfl⟩

theorem Carries.trans (h : Carries c c') (h' : Carries c' c'') : Carries c c'' :=
  ⟨h'.ring, h'.len.trans h.len, h'.held.trans h.held, h'.isClone.trans h.isClone,
    h'.decloned.trans h.decloned⟩

theorem rembytes_eq {n : Nat} (h : c.rembytes n = some c') : ∃ docall u,
    c.uio.rembytes n = some (docall, u) ∧ c'.uio = u ∧ c'.requestBytes = c.requestBytes ∧
      c'.isClone = c.isClone ∧ c'.decloned = c.decloned := by
  obtain ⟨⟨docall, u⟩, hu, rfl⟩ := Option.map_eq_some_iff.mp h
  refine ⟨docall, u, hu, ?_⟩
  dsimp only
  split
  · unfold enableSelread
    split <;> exact ⟨rfl, rfl, rfl, rfl⟩
  · exact ⟨rfl, rfl, rfl, rfl⟩

theorem setrcb_same (c : Ahttpcon) (cb : Bool) :
    (c.setrcb cb).uio = c.uio ∧ (c.setrcb cb).requestBytes = c.requestBytes ∧
      (c.setrcb cb).isClone = c.isClone ∧ (c.setrcb cb).decloned = c.decloned := by
  unfold setrcb enableSelread
  split
  · exact ⟨rfl, rfl, rfl, rfl⟩
  · split
    · next he =>
      split at he <;> cases he
      exact ⟨rfl, rfl, rfl, rfl⟩
    · next he =>
      split at he <;> cases he
      exact ⟨rfl, rfl, rfl, rfl⟩

theorem drain_carries {fuel : Nat} (hi : c.uio.Inv) (h : c.drain fuel = some c') :
    Carries c c' ∧ c'.uio.contents = [] := by
  have hdone {c : Ahttpcon} (hi : c.uio.Inv) (hz : c.uio.resid = 0) :
      Carries c c ∧ c.uio.contents = [] :=
    ⟨.refl hi, List.eq_nil_of_length_eq_zero (hi.resid_eq.trans hz)⟩
  induction fuel generalizing c with
  | zero =>
    simp only [drain] at h
    split at h <;> cases h
    next hz => exact hdone hi hz
  | succ fuel ih =>
    simp only [drain] at h
    split at h
    · next hz =>
      cases h
      exact hdone hi hz
    · obtain ⟨c₁, hr, h⟩ := Option.bind_eq_some_iff.mp h
      obtain ⟨docall, u, hu, rfl, hb, hk, hd⟩ := rembytes_eq hr
      obtain ⟨hi₁, hc, -⟩ := rembytes_ring hi hu
      obtain ⟨hcar, hnil⟩ := ih hi₁ h
      refine ⟨Carries.trans ⟨hi₁, Suiolite.rembytes_len hu, ?_, hk, hd⟩ hcar, hnil⟩
      rw [held, hb, hc, held, List.append_assoc]
      simp [Suiolite.contents, Suiolite.getdata]

theorem delimitted_carries {dres : Bool} (hi : c.uio.Inv)
    (h : c.delimitted cfg dres [] = some c') : Carries c c' ∧ c'.uio = c.uio := by
  obtain ⟨c₁, h₁, rfl⟩ := Option.map_eq_some_iff.mp h
  have hcall : Carries c c₁ ∧ c₁.uio = c.uio := by
    unfold callCcb at h₁
    split at h₁ <;> cases h₁ <;> exact ⟨⟨hi, rfl, rfl, rfl, rfl⟩, rfl⟩
  split
  · unfold endRead
    split
    · exact ⟨hcall.1.trans ⟨hcall.1.ring, rfl, rfl, rfl, rfl⟩, hcall.2⟩
    · exact hcall
  · exact ⟨hcall.1.trans ⟨hcall.1.ring, rfl, rfl, rfl, rfl⟩, hcall.2⟩

theorem recvdBytes_carries (hi : c.uio.Inv) (hd : c.decloned = false)
    (h : c.recvdBytes cfg [] = some c') :
    Carries c c' ∧ (c.isClone = true → c'.uio.contents = []) ∧ (c.isClone = false → c' = c) := by
  unfold recvdBytes at h
  split at h
  · next hno =>
    cases h
    refine ⟨.refl hi, fun hk => ?_, fun _ => rfl⟩
    simp [hk, hd] at hno
  · next hyes =>
    obtain ⟨c₁, hdr, h⟩ := Option.bind_eq_some_iff.mp h
    obtain ⟨hcar, hnil⟩ := drain_carries hi hdr
    have hk : c.isClone ≠ false := fun hk => hyes (by simp [hk])
    dsimp only at h
    split at h
    · obtain ⟨hcar', hu⟩ := delimitted_carries hcar.ring h
      exact ⟨hcar.trans hcar', fun _ => hu ▸ hnil, fun h => absurd h hk⟩
    · cases h
      exact ⟨hcar, fun _ => hnil, fun h => absurd h hk⟩

theorem input_carries {bs : Str} (hi : c.uio.Inv) (hd : c.decloned = false)
    (h : c.input cfg bs [] = some c') :
    c'.uio.Inv ∧ c'.uio.len = c.uio.len ∧ c'.isClone = c.isClone ∧ c'.decloned = false ∧
      c'.held = c.held ++ (if c.uio.full then [] else bs) ∧
      (c.isClone = true → c.uio.contents = [] → c'.uio.contents = []) ∧
      (c.isClone = false → c'.requestBytes = c.requestBytes) := by
  unfold input at h
  split at h
  · next hfull =>
    cases h
    refine ⟨hi, rfl, rfl, hd, ?_, fun _ => id, fun _ => rfl⟩
    rw [if_pos hfull, List.append_nil]
    rfl
  · next hfull =>
    split at h
    · cases h
    · next hbs =>
      have hlen : bs.length ≤ c.uio.free := Nat.le_of_not_lt fun h => hbs (.inr h)
      have hf := Suiolite.readv_filled hlen
      obtain ⟨hi₁, hc⟩ := hi.filled (hi.free_eq ▸ hlen) hf
      rw [if_neg hfull]
      -- what is read does not depend on the limit
      have hread {c₂ : Ahttpcon} (h : c₂.recvdBytes cfg [] = some c')
          (hu : c₂.uio = (c.uio.loadIov.readv bs).accountForNewBytes bs.length)
          (hb : c₂.requestBytes = c.requestBytes) (hk : c₂.isClone = c.isClone)
          (hd₂ : c₂.decloned = false) :
          c'.uio.Inv ∧ c'.uio.len = c.uio.len ∧ c'.isClone = c.isClone ∧ c'.decloned = false ∧
            c'.held = c.held ++ bs ∧
            (c.isClone = true → c.uio.contents = [] → c'.uio.contents = []) ∧
            (c.isClone = false → c'.requestBytes = c.requestBytes) := by
        obtain ⟨hcar, hnil, hsame⟩ := recvdBytes_carries (hu ▸ hi₁) hd₂ h
        refine ⟨hcar.ring, ?_, hcar.isClone.trans hk, hcar.decloned.trans hd₂, ?_, ?_, ?_⟩
        · rw [hcar.len, hu]
          exact hf.len
        · rw [hcar.held, held, hb, hu, hc, held, List.append_assoc]
        · exact fun h _ => hnil (hk.trans h)
        · intro h
          rw [hsame (hk.trans h), hb]
      dsimp only at h
      split at h
      · exact hread h rfl rfl rfl hd
      · exact hread h rfl rfl rfl hd

theorem setccb_carries (hi : c.uio.Inv) (hd : c.decloned = false) (hk : c.isClone = true)
    (h : c.setccb cfg [] = some c') :
    Carries c c' ∧ (0 < c.preload ∨ c.uio.contents = [] → c'.uio.contents = []) := by
  unfold setccb at h
  dsimp only at h
  split at h
  · obtain ⟨hcar, hnil, -⟩ :=
      recvdBytes_carries (c := { c with ccb := true, bytesRecv := _ }) hi hd h
    exact ⟨⟨hcar.ring, hcar.len, hcar.held, hcar.isClone, hcar.decloned⟩, fun _ => hnil hk⟩
  · next hz =>
    have hsame : Carries c c' ∧ c'.uio = c.uio := by
      unfold enableSelread at h
      split at h
      · next c₁ he =>
        cases h
        split at he <;> cases he
        exact ⟨⟨hi, rfl, rfl, rfl, rfl⟩, rfl⟩
      · next c₁ he =>
        cases h
        split at he <;> cases he
        unfold readFail
        rw [if_pos hk]
        split <;> exact ⟨⟨hi, rfl, rfl, rfl, rfl⟩, rfl⟩
    refine ⟨hsame.1, fun hn => ?_⟩
    rw [hsame.2]
    exact hn.resolve_left hz

theorem setKeepaliveData_fresh {l : Nat} {buf : Str} (hu : c.uio = .alloc l true) (hl : 0 < l)
    (hbuf : buf.length ≤ Suiolite.maxBuflen) (h : c.setKeepaliveData buf = some c') :
    c'.uio.Inv ∧ c'.uio.len ≤ Suiolite.maxBuflen ∧ c'.uio.contents = buf ∧
      c'.requestBytes = c.requestBytes ∧ c'.isClone = c.isClone ∧ c'.decloned = c.decloned ∧
      (0 < c'.preload ∨ c'.uio.contents = []) := by
  unfold setKeepaliveData at h
  split at h
  · next hnil =>
    cases h
    have hcont : c.uio.contents = [] := by simp [hu, Suiolite.contents, Suiolite.alloc]
    refine ⟨hu ▸ Suiolite.Inv.alloc hl true, ?_, hcont.trans hnil.symm, rfl, rfl, rfl, .inr hcont⟩
    rw [hu]
    exact Nat.min_le_right _ _
  · next hne =>
    obtain ⟨⟨n, u⟩, hload, rfl⟩ := Option.map_eq_some_iff.mp h
    obtain ⟨m, v, hload', hi, hc, hlen⟩ := Suiolite.load_fresh hl hbuf
    rw [hu, hload'] at hload
    cases hload
    exact ⟨hi, hlen, hc, rfl, rfl, rfl, .inl (List.length_pos_iff.mpr hne)⟩

end Bytes

end Ahttpcon

structure LineConfig extends ConConfig where
  reqsizeLimit : Nat

/-- A connection and who has it: `okd` has a clone.  `sent` is the stream of the client,
`socket` what nobody has read yet, and `presented` what the parsers of the services have taken. -/
structure Line where
  con : Ahttpcon
  sent : Str := []
  socket : Str := []
  presented : Str := []
  deriving DecidableEq

inductive LineEvent
  | send (bs : Str)
  /-- The socket is readable, and `n` of its bytes are read. -/
  | input (n : Nat)
  | setrcb (cb : Bool)
  /-- The parser of a service takes bytes, and `abuf_t` removes them from the buffer. -/
  | parse (n : Nat)
  /-- `send_con_to_service` and `handle_new_con2`. -/
  | sendCon
  /-- `oksrvc_t::keepalive` and `handle_keepalive`. -/
  | keepalive

namespace Line

variable (cfg : LineConfig)

/-- The connection that `newserv2` makes. -/
def okdCon : Ahttpcon :=
  { isClone := true, uio := .alloc 1024 true, recvLimit := cfg.reqsizeLimit }

/-- The connection that `handle_new_con_common` makes. -/
def svcCon : Ahttpcon :=
  { isClone := false, uio := .alloc Suiolite.defBuflen true, recvLimit := cfg.reqsizeLimit }

def sendCon (st : Line) : Option Line := do
  -- `to_xdr` collects what is in the buffer, and then `request_bytes` takes its place
  let _ ← st.con.uio.loadIntoXdr cfg.mem
  let con ← (svcCon cfg).setKeepaliveData st.con.requestBytes
  some { st with con := con }

def keepalive (st : Line) : Option Line := do
  let (scraps, _) ← st.con.uio.loadIntoXdr cfg.mem
  let con ← (okdCon cfg).setKeepaliveData scraps
  let con ← con.setccb cfg.toConConfig []
  some { st with con := con }

def step (st : Line) : LineEvent → Option Line
  | .send bs => some { st with sent := st.sent ++ bs, socket := st.socket ++ bs }
  | .input n =>
    if st.con.isOpen && st.con.rcbset then
      (st.con.input cfg.toConConfig (st.socket.take n) []).map fun con =>
        { st with con := con, socket := if st.con.uio.full then st.socket else st.socket.drop n }
    else none
  | .setrcb cb => if st.con.isClone then none else some { st with con := st.con.setrcb cb }
  | .parse n =>
    if st.con.isClone then none
    else (st.con.rembytes n).map fun con =>
      { st with con := con, presented := st.presented ++ st.con.uio.contents.take n }
  | .sendCon => if st.con.isClone && !st.con.ccb then st.sendCon cfg else none
  | .keepalive => if st.con.isClone then none else st.keepalive cfg

/-- A connection that `okd` has accepted. -/
def system : System Line LineEvent where
  init st := ∃ con, (okdCon cfg).setccb cfg.toConConfig [] = some con ∧ st = { con := con }
  step := step cfg

def Conserved (st : Line) : Prop :=
  st.presented ++ (st.con.requestBytes ++ st.con.uio.contents) ++ st.socket = st.sent

/-- What `okd` has read fits into the largest buffer, and what a service hands back lies in one
region of its buffer. -/
def Whole (st : Line) : LineEvent → Prop
  | .sendCon => st.con.requestBytes.length ≤ Suiolite.maxBuflen
  | .keepalive => st.con.uio.dep0 = 0
  | _ => True

structure Inv (st : Line) : Prop where
  ring : st.con.uio.Inv
  len : st.con.uio.len ≤ Suiolite.maxBuflen
  decloned : st.con.decloned = false
  okd : st.con.isClone = true → st.con.uio.contents = []
  svc : st.con.isClone = false → st.con.requestBytes = []
  conserved : st.Conserved

section Step

variable {cfg} {st st' : Line}

theorem sendCon_inv (hi : st.Inv) (hk : st.con.isClone = true)
    (hw : st.con.requestBytes.length ≤ Suiolite.maxBuflen) (h : st.sendCon cfg = some st') :
    st'.Inv := by
  obtain ⟨_, _, h⟩ := Option.bind_eq_some_iff.mp h
  obtain ⟨con, hcon, h⟩ := Option.bind_eq_some_iff.mp h
  cases h
  obtain ⟨hring, hlen, hc, hb, hk', hd, -⟩ :=
    Ahttpcon.setKeepaliveData_fresh (c := svcCon cfg) rfl (by decide) hw hcon
  have hcons := hi.conserved
  rw [Conserved, hi.okd hk, List.append_nil] at hcons
  refine ⟨hring, hlen, hd, fun h => ?_, fun _ => hb, ?_⟩
  · cases hk'.symm.trans h
  · rw [Conserved, hc, hb]
    exact hcons

theorem keepalive_inv (hi : st.Inv) (hk : st.con.isClone = false) (hw : st.con.uio.dep0 = 0)
    (h : st.keepalive cfg = some st') : st'.Inv := by
  obtain ⟨⟨scraps, _⟩, hx, h⟩ := Option.bind_eq_some_iff.mp h
  obtain ⟨con₁, hcon₁, h⟩ := Option.bind_eq_some_iff.mp h
  obtain ⟨con, hcon, h⟩ := Option.bind_eq_some_iff.mp h
  cases h
  obtain ⟨s', hx'⟩ := hi.ring.loadIntoXdr hw cfg.mem
  obtain ⟨rfl, -⟩ := Prod.mk.inj (Option.some.inj (hx.symm.trans hx'))
  have hfit : st.con.uio.contents.length ≤ Suiolite.maxBuflen := by
    rw [hi.ring.resid_eq]
    exact Nat.le_trans hi.ring.resid_le hi.len
  obtain ⟨hring, hlen, hc, hb, hk', hd, hpre⟩ :=
    Ahttpcon.setKeepaliveData_fresh (c := okdCon cfg) rfl (by decide) hfit hcon₁
  obtain ⟨hcar, hnil⟩ := Ahttpcon.setccb_carries hring hd hk' hcon
  have hcons := hi.conserved
  rw [Conserved, hi.svc hk, List.nil_append] at hcons
  have hheld : con.requestBytes ++ con.uio.contents = st.con.uio.contents := by
    rw [← Ahttpcon.held, hcar.held, Ahttpcon.held, hc, hb]
    rfl
  refine ⟨hcar.ring, hcar.len ▸ hlen, hcar.decloned.trans hd, fun _ => hnil hpre, fun h => ?_, ?_⟩
  · cases (hcar.isClone.trans hk').symm.trans h
  · rw [Conserved]
    exact (congrArg (fun bs => st.presented ++ bs ++ st.socket) hheld).trans hcons

theorem input_inv {n : Nat} {con : Ahttpcon} (hi : st.Inv)
    (h : st.con.input cfg.toConConfig (st.socket.take n) [] = some con) :
    Inv { st with con := con, socket := if st.con.uio.full then st.socket
      else st.socket.drop n } := by
  obtain ⟨hring, hlen, hk, hd, hheld, hnil, hreq⟩ := Ahttpcon.input_carries hi.ring hi.decloned h
  refine ⟨hring, hlen ▸ hi.len, hd, fun hc => ?_, fun hc => ?_, ?_⟩
  · exact hnil (hk.symm.trans hc) (hi.okd (hk.symm.trans hc))
  · exact (hreq (hk.symm.trans hc)).trans (hi.svc (hk.symm.trans hc))
  · have hcons := hi.conserved
    rw [Conserved, ← Ahttpcon.held] at hcons ⊢
    rw [hheld, ← hcons]
    split
    · rw [List.append_nil]
    · simp [List.append_assoc]

theorem step_inv {e : LineEvent} (hi : st.Inv) (hw : Whole st e) (h : st.step cfg e = some st') :
    st'.Inv := by
  cases e with
  | send bs =>
    cases h
    refine ⟨hi.ring, hi.len, hi.decloned, hi.okd, hi.svc, ?_⟩
    rw [Conserved, ← List.append_assoc, hi.conserved]
  | input n =>
    simp only [step] at h
    split at h
    · obtain ⟨con, hcon, rfl⟩ := Option.map_eq_some_iff.mp h
      exact input_inv hi hcon
    · cases h
  | setrcb cb =>
    simp only [step] at h
    split at h
    · cases h
    · cases h
      obtain ⟨hu, hb, hk, hd⟩ := Ahttpcon.setrcb_same st.con cb
      refine ⟨?_, ?_, hd.trans hi.decloned, ?_, ?_, ?_⟩
      · exact hu ▸ hi.ring
      · exact hu ▸ hi.len
      · rw [hk, hu]
        exact hi.okd
      · rw [hk, hb]
        exact hi.svc
      · rw [Conserved, hu, hb]
        exact hi.conserved
  | parse n =>
    simp only [step] at h
    split at h
    · cases h
    · next hk =>
      obtain ⟨con, hcon, rfl⟩ := Option.map_eq_some_iff.mp h
      obtain ⟨docall, u, hu, rfl, hb, hk', hd⟩ := Ahttpcon.rembytes_eq hcon
      obtain ⟨hring, hc, -⟩ := Ahttpcon.rembytes_ring hi.ring hu
      have hsvc : con.requestBytes = [] := hb.trans (hi.svc (Bool.eq_false_iff.mpr hk))
      have hcons := hi.conserved
      rw [Conserved, hi.svc (Bool.eq_false_iff.mpr hk), List.nil_append] at hcons
      refine ⟨hring, Suiolite.rembytes_len hu ▸ hi.len, hd.trans hi.decloned, fun h => ?_,
        fun _ => hsvc, ?_⟩
      · exact absurd (hk'.symm.trans h) hk
      · rw [Conserved, hsvc, List.nil_append, hc, List.append_assoc st.presented,
          List.take_append_drop]
        exact hcons
  | sendCon =>
    simp only [step] at h
    split at h
    · next hk =>
      rw [Bool.and_eq_true] at hk
      exact sendCon_inv hi hk.1 hw h
    · cases h
  | keepalive =>
    simp only [step] at h
    split at h
    · cases h
    · next hk => exact keepalive_inv hi (Bool.eq_false_iff.mpr hk) hw h

end Step

theorem conserved_of_whole {st : Line} (h : (system cfg).Reach Whole st) : st.Conserved := by
  refine (h.invariant (I := Inv) ?_ fun _ _ _ _ hi hw hs => step_inv hi hw hs).conserved
  rintro _ ⟨con, hcon, rfl⟩
  have hring : (okdCon cfg).uio.Inv := Suiolite.Inv.alloc (by decide) true
  have hempty :
      (okdCon cfg).uio.contents = [] := by simp [okdCon, Suiolite.contents, Suiolite.alloc]
  obtain ⟨hcar, hnil⟩ := Ahttpcon.setccb_carries hring rfl rfl hcon
  refine ⟨hcar.ring, ?_, hcar.decloned, fun _ => hnil (.inr hempty), fun h => ?_, ?_⟩
  · rw [hcar.len]
    exact Nat.min_le_right _ _
  · cases hcar.isClone.symm.trans h
  · have hheld : con.requestBytes ++ con.uio.contents = [] := by
      rw [← Ahttpcon.held, hcar.held, Ahttpcon.held, hempty]
      rfl
    simp [Conserved, hheld]

def plainConfig : LineConfig where
  allHeaders := false
  maxline := 1024
  mem := fun _ => 0
  declones := fun _ _ => false
  hdrsizeLimit := 0x2000
  reqsizeLimit := 0x200000

/-- Two requests come at once, and the service hands the second one back. -/
theorem conserved_pipelined : ∃ st, (system plainConfig).Reach Whole st ∧
    st.presented = ascii ['A', ' ', '/', ' '] ∧ st.con.isClone = true ∧
    st.con.requestBytes = ascii ['B', ' ', '/', ' '] ∧ st.Conserved := by
  have h₀ : (system plainConfig).Reach Whole { con := { okdCon plainConfig with
      ccb := true, rcbset := true } } := .init ⟨_, rfl, rfl⟩
  have h₁ := h₀.step
      (show Whole _ (.send (ascii ['A', ' ', '/', ' ', 'B', ' ', '/', ' '])) from trivial) rfl
  have h₂ := h₁.step (show Whole _ (.input 8) from trivial) rfl
  have h₃ := h₂.step (show Whole _ .sendCon from Nat.le_of_ble_eq_true rfl) rfl
  have h₄ := h₃.step (show Whole _ (.parse 4) from trivial) rfl
  have h₅ := h₄.step (show Whole _ .keepalive from rfl) rfl
  exact ⟨_, h₅, rfl, rfl, rfl, conserved_of_whole plainConfig h₅⟩

section Wrapped

variable {st : Line} {rp dep0 dep1 recvd : Nat} {bs : Str}

/-- The connection is with a service, and its buffer holds `bs`. -/
structure Svc (st : Line) (rp dep0 dep1 recvd : Nat) (bs : Str) : Prop where
  reachable : (system plainConfig).Reachable st
  isClone : st.con.isClone = false
  reads : (st.con.isOpen && st.con.rcbset) = true
  ring : st.con.uio.Inv
  len : st.con.uio.len = 66560
  rp : st.con.uio.rp = rp
  dep0 : st.con.uio.dep0 = dep0
  dep1 : st.con.uio.dep1 = dep1
  contents : st.con.uio.contents = bs
  recvd : st.con.bytesRecv = recvd
  limit : st.con.recvLimit = 0x200000

theorem Svc.resid (h : Svc st rp dep0 dep1 recvd bs) : st.con.uio.resid = bs.length := by
  rw [← h.ring.resid_eq, h.contents]

theorem Svc.full (h : Svc st rp dep0 dep1 recvd bs) (hne : bs.length ≠ 66560) :
    st.con.uio.full = false := by
  rw [Suiolite.full, h.resid, h.len]
  simpa using hne

theorem Svc.parse {n : Nat} (h : Svc st rp dep0 dep1 recvd bs) (hne : bs.length ≠ 66560)
    (hn : n ≤ bs.length) (hlt : n < 66560 - rp) :
    ∃ st', Svc st' (rp + n) dep0 dep1 recvd (bs.drop n) ∧ st'.sent = st.sent ∧
      st'.socket = st.socket ∧ st'.presented = st.presented ++ bs.take n := by
  have hn' : n ≤ st.con.uio.resid := h.resid ▸ hn
  have hlt' : n < st.con.uio.bep - st.con.uio.rp := by rwa [h.ring.bep, h.len, h.rp]
  have hrem := Suiolite.rembytes_lt hn' hlt'
  obtain ⟨hi, hc, -⟩ := Ahttpcon.rembytes_ring h.ring hrem
  have hstep : (system plainConfig).step st (.parse n) = some { st with
      con := { st.con with uio := { st.con.uio with rp := st.con.uio.rp + n } }
      presented := st.presented ++ st.con.uio.contents.take n } := by
    simp only [system, step, h.isClone, Ahttpcon.rembytes, hrem, h.full hne, Bool.false_and]
    rfl
  refine ⟨_, ⟨h.reachable.step trivial hstep, h.isClone, h.reads, hi, h.len, ?_, h.dep0, h.dep1, ?_,
    h.recvd, h.limit⟩, rfl, rfl, ?_⟩
  · exact congrArg (· + n) h.rp
  · rw [hc, h.contents]
  · rw [← h.contents]

theorem Svc.input (h : Svc st rp dep0 dep1 recvd bs) (hne : st.socket ≠ [])
    (hfit : bs.length + st.socket.length ≤ 66560) (hlim : recvd + st.socket.length ≤ 0x200000) :
    ∃ st', Svc st' rp (dep0 + (st.socket.length - (66560 - dep1)))
        (dep1 + min (66560 - dep1) st.socket.length) (recvd + st.socket.length) (bs ++ st.socket) ∧
      st'.sent = st.sent ∧ st'.socket = [] ∧ st'.presented = st.presented := by
  have hpos : 0 < st.socket.length := List.length_pos_iff.mpr hne
  have hroom : st.socket.length ≤ st.con.uio.len - st.con.uio.resid := by
    rw [h.len, h.resid]
    omega
  have hfree : st.socket.length ≤ st.con.uio.free := h.ring.free_eq ▸ hroom
  have hf := Suiolite.readv_filled hfree
  obtain ⟨hi, hc⟩ := h.ring.filled hroom hf
  have hread : ¬ (st.socket = [] ∨ st.con.uio.free < st.socket.length) := by
    rintro (h | h)
    · exact hne h
    · omega
  have hno : ¬ (0 < st.con.recvLimit ∧ st.con.recvLimit < st.con.bytesRecv + st.socket.length) := by
    rw [h.limit, h.recvd]
    omega
  have hstep : (system plainConfig).step st (.input st.socket.length) = some { st with
      con := { st.con with
        uio := (st.con.uio.loadIov.readv st.socket).accountForNewBytes st.socket.length
        bytesRecv := st.con.bytesRecv + st.socket.length }
      socket := [] } := by
    simp only [system, step, h.reads, if_true, List.take_length, List.drop_length, Ahttpcon.input,
      h.full (by omega), Bool.false_eq_true, if_false]
    rw [if_neg hread, if_neg hno, Ahttpcon.recvdBytes, if_pos (by simp [h.isClone])]
    rfl
  have hbep : st.con.uio.bep = 66560 := h.ring.bep.trans h.len
  refine ⟨_, ⟨h.reachable.step trivial hstep, h.isClone, h.reads, hi, hf.len.trans h.len,
    hf.rp.trans h.rp, ?_, ?_, ?_, ?_, h.limit⟩, rfl, rfl, rfl⟩
  · rw [hf.dep0, hbep, h.dep0, h.dep1, List.length_drop]
  · rw [hf.dep1, hbep, h.dep1, List.length_take]
  · rw [hc, h.contents]
  · exact congrArg (· + st.socket.length) h.recvd

/-- A connection that `okd` reads. -/
def okdWaits : Ahttpcon := { okdCon plainConfig with ccb := true, rcbset := true }

/-- A service that has been handed four bytes, and reads more. -/
def svcWaits : Ahttpcon :=
  { svcCon plainConfig with
    uio := { Suiolite.alloc Suiolite.defBuflen true with
      mem := poke (Suiolite.alloc Suiolite.defBuflen true).mem 0 [65, 32, 47, 32]
      dep1 := 4
      bytesRead := 4 }
    preload := 4
    rcbset := true
    rcb := true }

theorem okdWaits_input : ∃ c, okdWaits.input plainConfig.toConConfig [65, 32, 47, 32] [] = some c ∧
    c.isClone = true ∧ c.ccb = false ∧ c.requestBytes = [65, 32, 47, 32] ∧
    (c.uio.loadIntoXdr plainConfig.mem).isSome := by
  decide

theorem svcWaits_reachable (rest : Str) : (system plainConfig).Reachable
    { con := svcWaits, sent := [65, 32, 47, 32] ++ rest, socket := rest } := by
  obtain ⟨c, hc, hk, hccb, hb, hx⟩ := okdWaits_input
  obtain ⟨x, hx⟩ := Option.isSome_iff_exists.mp hx
  have h₀ : (system plainConfig).Reachable { con := okdWaits } := .init ⟨_, rfl, rfl⟩
  have h₁ := h₀.step (e := .send ([65, 32, 47, 32] ++ rest)) trivial rfl
  have h₂ : (system plainConfig).Reachable
      { con := c, sent := [65, 32, 47, 32] ++ rest, socket := rest } := by
    refine h₁.step (e := .input 4) trivial ?_
    have hopen : (okdWaits.isOpen && okdWaits.rcbset) = true := rfl
    have hfull : okdWaits.uio.full = false := rfl
    have htake : ([65, 32, 47, 32] ++ rest : Str).take 4 = [65, 32, 47, 32] := rfl
    simp only [system, step, hopen, if_true, List.nil_append, htake, hc, hfull, Option.map_some]
    rfl
  have h₃ : (system plainConfig).Reachable
      ⟨{ svcWaits with rcbset := false, rcb := false }, [65, 32, 47, 32] ++ rest, rest, []⟩ := by
    refine h₂.step (e := .sendCon) trivial ?_
    simp only [system, step, hk, hccb, Bool.not_false, Bool.and_true, if_true, sendCon, hx, hb]
    rfl
  exact h₃.step (e := .setrcb true) trivial rfl

theorem svcWaits_ring : svcWaits.uio.Inv := by
  refine ⟨?_, rfl, by decide, by decide, by decide, .inr rfl⟩
  have hmem : (Suiolite.alloc Suiolite.defBuflen true).mem.length = 66560 := List.length_replicate
  exact (poke_length (by rw [hmem]; decide)).trans hmem

theorem exists_wrapped {pad : Str} (hpad : pad.length = 66554) : ∃ st,
    Svc st 66558 3 66560 66559 [1, 2, 3, 4, 5] ∧ st.presented = [65, 32, 47, 32] ++ pad ∧
      st.socket = [] ∧ st.sent = [65, 32, 47, 32] ++ (pad ++ [1, 2, 3, 4, 5]) := by
  have hlen : (pad ++ [1, 2, 3, 4, 5]).length = 66559 := by simp [hpad]
  have h₀ : Svc ⟨svcWaits, [65, 32, 47, 32] ++ (pad ++ [1, 2, 3, 4, 5]), pad ++ [1, 2, 3, 4, 5], []⟩
      0 0 4 0 [65, 32, 47, 32] :=
    ⟨svcWaits_reachable _, rfl, rfl, svcWaits_ring, rfl, rfl, rfl, rfl, rfl, rfl, rfl⟩
  obtain ⟨st₁, h₁, hsent₁, hsock₁, hpre₁⟩ := h₀.parse (n := 4) (by decide) (by decide) (by decide)
  dsimp only at hsock₁
  rw [← hsock₁] at hlen
  obtain ⟨st₂, h₂, hsent₂, hsock₂, hpre₂⟩ :=
    h₁.input (by simp [hsock₁]) (by simp [hlen]) (by simp [hlen])
  obtain ⟨st₃, h₃, hsent₃, hsock₃, hpre₃⟩ := h₂.parse (n := 66554) (by simp [hlen]) (by simp [hlen])
    (by decide)
  rw [hlen, hsock₁] at h₃
  rw [hsock₁] at hpre₃
  have hdrop : ([65, 32, 47, 32].drop 4 ++ (pad ++ [1, 2, 3, 4, 5])).drop 66554 =
      [1, 2, 3, 4, 5] := by
    rw [← hpad]
    exact List.drop_left
  have htake : ([65, 32, 47, 32].drop 4 ++ (pad ++ [1, 2, 3, 4, 5])).take 66554 = pad := by
    rw [← hpad]
    exact List.take_left
  rw [hdrop] at h₃
  refine ⟨st₃, h₃, ?_, hsock₃.trans hsock₂, hsent₃.trans (hsent₂.trans hsent₁)⟩
  rw [hpre₃, hpre₂, hpre₁, htake]
  rfl

end Wrapped

/-- The second region of the buffer is passed back in the place of the first one. -/
theorem not_conserved_wrapped : ∃ st, (system plainConfig).Reachable st ∧ ¬ st.Conserved := by
  obtain ⟨st, h, hpre, hsock, hsent⟩ :=
    exists_wrapped (List.length_replicate (a := (0 : UInt8)))
  have hne : st.con.uio.dep0 ≠ 0 := by rw [h.dep0]; decide
  obtain ⟨u, hx⟩ := h.ring.loadIntoXdr_wrapped hne plainConfig.mem
  -- the regions are two bytes and three
  have hparts : st.con.uio.getdata ++ slice st.con.uio.mem 0 st.con.uio.dep0 = [1, 2] ++
      [3, 4, 5] :=
    h.contents
  have hlen : st.con.uio.getdata.length = 2 := by
    have hbound : st.con.uio.dep1 ≤ st.con.uio.mem.length := by
      simp only [h.ring.mem, h.len, h.dep1, Nat.reduceLeDiff]
    rw [Suiolite.getdata, slice_length hbound, h.dep1, h.rp]
  obtain ⟨hget, hlow⟩ := List.append_inj hparts hlen
  rw [h.resid, hget, hlow] at hx
  obtain ⟨con, hcon, hreq⟩ : ∃ con, ((okdCon plainConfig).setKeepaliveData [3, 4, 5, 0, 0]).bind
      (fun con => con.setccb plainConfig.toConConfig []) = some con ∧
        con.requestBytes ++ con.uio.contents = [3, 4, 5, 0, 0] := by
    decide
  have hstep : (system plainConfig).step st .keepalive = some { st with con := con } := by
    obtain ⟨con₁, hcon₁, hcon⟩ := Option.bind_eq_some_iff.mp hcon
    have hx' : st.con.uio.loadIntoXdr plainConfig.mem = some ([3, 4, 5, 0, 0], u) := hx
    simp [system, step, h.isClone, keepalive, hx', hcon₁, hcon]
  refine ⟨_, h.reachable.step trivial hstep, fun hc => ?_⟩
  rw [Conserved, hreq, hpre, hsock, hsent, List.append_nil, List.append_assoc] at hc
  cases List.append_cancel_left (List.append_cancel_left hc)

end Line

end Okws
