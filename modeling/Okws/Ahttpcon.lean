import Okws.Lib.Transition
import Okws.Clone
import Okws.Suiolite

/-! `ahttpcon` and `ahttpcon_clone`: when a connection is registered for reading. -/

namespace Okws

open Lib

structure ConConfig extends CloneConfig where
  hdrsizeLimit : Nat

/-- The members of a connection that decide about reading; callbacks are known by whether they are
set.  `stopped` says that reading has been stopped since the last `enable_selread`, and `preload`
is what `set_keepalive_data` has returned. -/
structure Ahttpcon where
  isClone : Bool
  uio : Suiolite
  recvLimit : Nat
  isOpen : Bool := true
  rcbset : Bool := false
  noMoreRead : Bool := false
  stopped : Bool := false
  rcb : Bool := false
  ccb : Bool := false
  decloned : Bool := false
  bytesRecv : Nat := 0
  requestBytes : Str := []
  preload : Nat := 0
  deriving DecidableEq

/-- What is done to a connection from outside, also by its callbacks. -/
inductive ConAct
  | setKeepaliveData (buf : Str)
  | setrcb (cb : Bool)
  /-- The reader takes bytes. -/
  | rembytes (n : Nat)
  | declone
  | stopRead
  /-- `hit_timeout` and `kill`. -/
  | readFail
  /-- `cancel`, and an error of the socket. -/
  | fail
  | takefd

/-- With `acts`, what the callback of `setccb` does when it is called. -/
inductive ConEvent
  | act (a : ConAct)
  | setccb (acts : List ConAct)
  /-- The socket is readable, and has `bs`. -/
  | input (bs : Str) (acts : List ConAct)

namespace Ahttpcon

variable (cfg : ConConfig)

/-- `enable_selread`, with its result. -/
def enableSelread (c : Ahttpcon) : Bool × Ahttpcon :=
  if !c.isOpen || c.noMoreRead then (false, c)
  else (true, { c with rcbset := true, stopped := false })

def disableSelread (c : Ahttpcon) : Ahttpcon := { c with rcbset := false, stopped := true }

def issueCcb (c : Ahttpcon) : Ahttpcon := { c with ccb := false }

def fail (c : Ahttpcon) : Ahttpcon :=
  let c := { c with rcbset := false, isOpen := false }
  if c.isClone then c.issueCcb else c

def readFail (c : Ahttpcon) : Ahttpcon :=
  if c.isClone then
    (if c.isOpen then { c.disableSelread with noMoreRead := true } else c).issueCcb
  else c.fail

def stopRead (c : Ahttpcon) : Ahttpcon :=
  if !c.noMoreRead && c.isOpen then { c.disableSelread with noMoreRead := true } else c

def takefd (c : Ahttpcon) : Ahttpcon :=
  let c := if c.isOpen then { c with rcbset := false, isOpen := false } else c
  if c.isClone then c.issueCcb else c

def setrcb (c : Ahttpcon) (cb : Bool) : Ahttpcon :=
  if !cb then { c with rcb := false }
  else match c.enableSelread with
    | (true, c) => { c with rcb := true }
    | (false, c) => c

/-- `rembytes` of the buffer; the space callback is `spacecb`. -/
def rembytes (c : Ahttpcon) (n : Nat) : Option Ahttpcon :=
  (c.uio.rembytes n).map fun (docall, uio) =>
    let c := { c with uio := uio }
    if docall then c.enableSelread.2 else c

/-- `set_keepalive_data`, which does not return what `load_from_buffer` returns. -/
def setKeepaliveData (c : Ahttpcon) (buf : Str) : Option Ahttpcon :=
  if buf = [] then some { c with preload := 0 }
  else (c.uio.loadFromBuffer buf).map fun r => { c with uio := r.2, preload := buf.length }

def act (c : Ahttpcon) : ConAct → Option Ahttpcon
  | .setKeepaliveData buf => c.setKeepaliveData buf
  | .setrcb cb => some (c.setrcb cb)
  | .rembytes n => c.rembytes n
  | .declone => if c.isClone then some { c with decloned := true } else none
  | .stopRead => some c.stopRead
  | .readFail => some c.readFail
  | .fail => some c.fail
  | .takefd => some c.takefd

/-- The loop of `ahttpcon_clone::recvd_bytes`. -/
def drain : Nat → Ahttpcon → Option Ahttpcon
  | 0, c => if c.uio.resid = 0 then some c else none
  | fuel + 1, c =>
    if c.uio.resid = 0 then some c
    else
      let p := c.uio.getdata
      ({ c with requestBytes := c.requestBytes ++ p }.rembytes p.length).bind (drain fuel)

def endRead (c : Ahttpcon) : Ahttpcon := if c.isOpen then c.disableSelread else c

/-- The call of `ccb`, which is set to NULL after it. -/
def callCcb (c : Ahttpcon) (acts : List ConAct) : Option Ahttpcon :=
  if c.ccb then (acts.foldlM act c).map issueCcb else some c

/-- The end of `ahttpcon_clone::recvd_bytes`, with a result or an error. -/
def delimitted (c : Ahttpcon) (dres : Bool) (acts : List ConAct) : Option Ahttpcon :=
  (c.callCcb acts).map fun c =>
    if dres && !c.decloned then c.endRead else { c with recvLimit := cfg.hdrsizeLimit }

def recvdBytes (c : Ahttpcon) (acts : List ConAct) : Option Ahttpcon :=
  -- what `rcb` does comes after this
  if !c.isClone || c.decloned then some c
  else do
    let c ← c.drain c.uio.resid
    let (dres, status) := Clone.delimitted cfg.toCloneConfig c.requestBytes
    if dres.isSome ∨ status ≠ Http.ok then c.delimitted cfg dres.isSome acts else some c

def setccb (c : Ahttpcon) (acts : List ConAct) : Option Ahttpcon :=
  let c := { c with ccb := true }
  if 0 < c.preload then { c with bytesRecv := c.bytesRecv + c.preload }.recvdBytes cfg acts
  else match c.enableSelread with
    | (true, c) => some c
    | (false, c) => some c.readFail

/-- `input`, when `doread` reads `bs`. -/
def input (c : Ahttpcon) (bs : Str) (acts : List ConAct) : Option Ahttpcon :=
  if c.uio.full then some { c with rcbset := false }
  else if bs = [] ∨ c.uio.free < bs.length then none
  else
    let c := { c with
      uio := (c.uio.loadIov.readv bs).accountForNewBytes bs.length
      bytesRecv := c.bytesRecv + bs.length }
    let c := if 0 < c.recvLimit ∧ c.recvLimit < c.bytesRecv then c.disableSelread else c
    c.recvdBytes cfg acts

def step (c : Ahttpcon) : ConEvent → Option Ahttpcon
  | .act a => c.act a
  | .setccb acts => if c.isClone then c.setccb cfg acts else none
  | .input bs acts => if c.isOpen && c.rcbset then c.input cfg bs acts else none

/-- A new connection with a buffer of `l` bytes. -/
def system : System Ahttpcon ConEvent where
  init c := ∃ (isClone : Bool) (l recvLimit : Nat), 0 < l ∧ c = ⟨isClone, .alloc l true, recvLimit,
    true, false, false, false, false, false, false, 0, [], 0⟩
  step := step cfg

/-- The connection is being read, or will be when there is space in the buffer. -/
def Registered (c : Ahttpcon) : Prop :=
  c.isOpen = true → c.stopped = false → c.rcbset = true ∨ (c.uio.full = true ∧ c.uio.scb = true)

def Watched (c : Ahttpcon) : Prop := c.rcb = true ∨ c.ccb = true → c.Registered

/-- A reader that makes space in a full buffer gets more. -/
def Wakes (c : Ahttpcon) : Prop :=
  c.isOpen = true → c.stopped = false → c.uio.full = true → c.uio.scb = true →
    ∀ n c', 0 < n → c.rembytes n = some c' → c'.rcbset = true

def Decided (bytes : Str) : Prop :=
  (Clone.delimitted cfg.toCloneConfig bytes).1.isSome ∨
    (Clone.delimitted cfg.toCloneConfig bytes).2 ≠ Http.ok

/-- Preloaded bytes decide the request, unless the connection is registered already or the buffer
is full; and a buffer that has grown, and so has lost its space callback, is not found full. -/
def Fed (c : Ahttpcon) : ConEvent → Prop
  | .act _ => True
  | .setccb _ => c.preload = 0 ∨ c.Registered ∨
      (c.decloned = false ∧ Decided cfg (c.requestBytes ++ c.uio.contents))
  | .input _ _ => c.uio.full = true → c.uio.scb = true

section Ring

variable {u u' : Suiolite}

theorem rembytes_ring {n : Nat} {docall : Bool} (hi : u.Inv)
    (h : u.rembytes n = some (docall, u')) :
    u'.Inv ∧ u'.contents = u.contents.drop n ∧ u'.scb = u.scb ∧
      docall = (u.full && 0 < n && u.scb) ∧ (n = 0 → u' = u) := by
  have hn : n ≤ u.resid := by
    by_contra hn
    rw [Suiolite.rembytes, if_neg hn] at h
    cases h
  obtain ⟨d, v, hr, hiv, -, hc⟩ := hi.rembytes hn
  cases hr.symm.trans h
  rw [Suiolite.rembytes, if_pos hn] at h
  have hrp := hi.rp
  cases Prod.mk.inj (Option.some.inj h) with
  | intro hd hu =>
    refine ⟨hiv, hc, ?_, hd.symm, ?_⟩
    · rw [← hu]
      split <;> rfl
    · rintro rfl
      rw [← hu, if_neg (by omega)]
      rfl

theorem input_ring {bs : Str} (hi : u.Inv) (hbs : bs.length ≤ u.free) :
    ((u.loadIov.readv bs).accountForNewBytes bs.length).Inv := by
  refine (hi.filled ?_ (Suiolite.readv_filled hbs)).1
  rwa [← hi.free_eq]

end Ring

/-- The buffer is one, and what cannot be read any more has been stopped. -/
structure Sound (c : Ahttpcon) : Prop where
  ring : c.uio.Inv
  noMore : c.noMoreRead = true → c.stopped = true

/-- `c'` is read if `c` is, and nobody else waits for it. -/
structure Next (c c' : Ahttpcon) : Prop where
  sound : c'.Sound
  registered : c.Registered → c'.Registered
  rcb : c'.rcb = true → c.rcb = true ∨ c'.Registered
  ccb : c'.ccb = true → c.ccb = true

section Step

variable {cfg} {c c' c'' : Ahttpcon}

theorem registered_of_stopped (h : c.stopped = true) : c.Registered := fun _ hs => by
  cases h.symm.trans hs

theorem registered_of_closed (h : c.isOpen = false) : c.Registered := fun ho => by
  cases h.symm.trans ho

theorem Next.trans (h : Next c c') (h' : Next c' c'') : Next c c'' where
  sound := h'.sound
  registered := h'.registered ∘ h.registered
  rcb hr := (h'.rcb hr).elim (fun hr => (h.rcb hr).imp_right h'.registered) .inr
  ccb := h.ccb ∘ h'.ccb

theorem Next.watched (h : Next c c') (hw : c.Watched) : c'.Watched := by
  rintro (hr | hc)
  · exact (h.rcb hr).elim (fun hr => h.registered (hw (.inl hr))) id
  · exact h.registered (hw (.inr (h.ccb hc)))

theorem Next.of_registered (hs : c'.Sound) (hr : c'.Registered)
    (hc : c'.ccb = true → c.ccb = true) :
    Next c c' := ⟨hs, fun _ => hr, fun _ => .inr hr, hc⟩

theorem Next.of_same (hs : c'.Sound) (ho : c'.isOpen = c.isOpen) (hst : c'.stopped = c.stopped)
    (hset : c'.rcbset = c.rcbset) (hu : c'.uio = c.uio) (hr : c'.rcb = true → c.rcb = true)
    (hc : c'.ccb = true → c.ccb = true) : Next c c' where
  sound := hs
  registered := by
    rw [Registered, Registered, ho, hst, hset, hu]
    exact id
  rcb h := .inl (hr h)
  ccb := hc

theorem enableSelread_registered (hs : c.Sound) : c.enableSelread.2.Registered := by
  unfold enableSelread
  split
  · next h =>
    rw [Bool.or_eq_true, Bool.not_eq_true'] at h
    exact h.elim registered_of_closed fun hn => registered_of_stopped (hs.noMore hn)
  · exact fun _ _ => .inl rfl

theorem enableSelread_sound (hs : c.Sound) : c.enableSelread.2.Sound := by
  unfold enableSelread
  split
  · exact hs
  · next h =>
    refine ⟨hs.ring, fun hn => absurd ?_ h⟩
    rw [Bool.or_eq_true]
    exact .inr hn

theorem enableSelread_next (hs : c.Sound) : Next c c.enableSelread.2 := by
  refine .of_registered (enableSelread_sound hs) (enableSelread_registered hs) fun h => ?_
  unfold enableSelread at h
  split at h <;> exact h

theorem disableSelread_next (hs : c.Sound) : Next c c.disableSelread :=
  .of_registered ⟨hs.ring, fun _ => rfl⟩ (registered_of_stopped rfl) id

theorem issueCcb_next (hs : c.Sound) : Next c c.issueCcb :=
  .of_same ⟨hs.ring, hs.noMore⟩ rfl rfl rfl rfl id nofun

theorem closed_next (hs : c.Sound) : Next c { c with rcbset := false, isOpen := false } :=
  .of_registered ⟨hs.ring, hs.noMore⟩ (registered_of_closed rfl) id

theorem issueIf_next (hs : c.Sound) : Next c (if c.isClone then c.issueCcb else c) := by
  split
  · exact issueCcb_next hs
  · exact .of_same hs rfl rfl rfl rfl id id

theorem fail_next (hs : c.Sound) : Next c c.fail :=
  (closed_next hs).trans (issueIf_next (closed_next hs).sound)

theorem noMoreRead_next (hs : c.Sound) : Next c { c.disableSelread with noMoreRead := true } :=
  .of_registered ⟨hs.ring, fun _ => rfl⟩ (registered_of_stopped rfl) id

theorem readFail_next (hs : c.Sound) : Next c c.readFail := by
  unfold readFail
  split
  · split
    · exact (noMoreRead_next hs).trans (issueCcb_next (noMoreRead_next hs).sound)
    · exact issueCcb_next hs
  · exact fail_next hs

theorem stopRead_next (hs : c.Sound) : Next c c.stopRead := by
  unfold stopRead
  split
  · exact noMoreRead_next hs
  · exact .of_same hs rfl rfl rfl rfl id id

theorem takefd_next (hs : c.Sound) : Next c c.takefd := by
  have hclose : Next c (if c.isOpen then { c with rcbset := false, isOpen := false } else c) := by
    split
    · exact closed_next hs
    · exact .of_same hs rfl rfl rfl rfl id id
  exact hclose.trans (issueIf_next hclose.sound)

theorem setrcb_next (hs : c.Sound) (cb : Bool) : Next c (c.setrcb cb) := by
  have hen := enableSelread_next hs
  have hreg := enableSelread_registered hs
  unfold setrcb
  split
  · exact .of_same ⟨hs.ring, hs.noMore⟩ rfl rfl rfl rfl nofun id
  · split
    · next c₁ h =>
      rw [h] at hen hreg
      exact .of_registered ⟨hen.sound.ring, hen.sound.noMore⟩ hreg hen.ccb
    · next c₁ h =>
      rw [h] at hen
      exact hen

theorem rembytes_next {n : Nat} (hs : c.Sound) (h : c.rembytes n = some c') :
    Next c c' ∧ c'.requestBytes = c.requestBytes ∧ c'.uio.contents = c.uio.contents.drop n := by
  obtain ⟨⟨docall, u⟩, hu, rfl⟩ := Option.map_eq_some_iff.mp h
  obtain ⟨hi, hc, hscb, hd, hz⟩ := rembytes_ring hs.ring hu
  have hs' : Sound { c with uio := u } := ⟨hi, hs.noMore⟩
  cases docall with
  | true =>
    refine ⟨.of_registered (enableSelread_sound hs') (enableSelread_registered hs') ?_, ?_⟩
    · exact (enableSelread_next hs').ccb
    · simp only [if_true]
      unfold enableSelread
      split <;> exact ⟨rfl, hc⟩
  | false =>
    refine ⟨⟨hs', fun hr ho hst => (hr ho hst).imp_right fun hfull => ?_, .inl, id⟩, rfl, hc⟩
    -- the callback was not due, so nothing has been removed
    have hn : n = 0 := by simpa [hfull.1, hfull.2] using hd
    rw [hz hn]
    exact hfull

theorem setKeepaliveData_next {buf : Str} (hs : c.Sound) (h : c.setKeepaliveData buf = some c') :
    Next c c' := by
  unfold setKeepaliveData at h
  split at h
  · cases h
    exact .of_same ⟨hs.ring, hs.noMore⟩ rfl rfl rfl rfl id id
  · next hne =>
    obtain ⟨⟨n, u⟩, hu, rfl⟩ := Option.map_eq_some_iff.mp h
    refine ⟨⟨hs.ring.load hu, hs.noMore⟩, fun hr ho hst => (hr ho hst).imp_right fun hfull => ?_,
      .inl, id⟩
    cases hu.symm.trans (hs.ring.load_full hfull.1 hne)

theorem act_next {a : ConAct} (hs : c.Sound) (h : c.act a = some c') : Next c c' := by
  cases a with
  | setKeepaliveData buf => exact setKeepaliveData_next hs h
  | setrcb cb =>
    cases h
    exact setrcb_next hs cb
  | rembytes n => exact (rembytes_next hs h).1
  | declone =>
    simp only [act] at h
    split at h <;> cases h
    exact .of_same ⟨hs.ring, hs.noMore⟩ rfl rfl rfl rfl id id
  | stopRead =>
    cases h
    exact stopRead_next hs
  | readFail =>
    cases h
    exact readFail_next hs
  | fail =>
    cases h
    exact fail_next hs
  | takefd =>
    cases h
    exact takefd_next hs

theorem acts_next {acts : List ConAct} (hs : c.Sound) (h : acts.foldlM act c = some c') :
    Next c c' := by
  induction acts generalizing c with
  | nil =>
    cases h
    exact .of_same hs rfl rfl rfl rfl id id
  | cons a acts ih =>
    rw [List.foldlM_cons] at h
    obtain ⟨c₁, ha, h⟩ := Option.bind_eq_some_iff.mp h
    exact (act_next hs ha).trans (ih (act_next hs ha).sound h)

theorem drain_next {fuel : Nat} (hs : c.Sound) (h : c.drain fuel = some c') :
    Next c c' ∧ c'.requestBytes = c.requestBytes ++ c.uio.contents := by
  have hdone {c : Ahttpcon} (hs : c.Sound) (hz : c.uio.resid = 0) :
      Next c c ∧ c.requestBytes = c.requestBytes ++ c.uio.contents := by
    refine ⟨.of_same hs rfl rfl rfl rfl id id, ?_⟩
    rw [List.eq_nil_of_length_eq_zero (hs.ring.resid_eq.trans hz), List.append_nil]
  induction fuel generalizing c with
  | zero =>
    simp only [drain] at h
    split at h <;> cases h
    next hz => exact hdone hs hz
  | succ fuel ih =>
    simp only [drain] at h
    split at h
    · next hz =>
      cases h
      exact hdone hs hz
    · obtain ⟨c₁, hr, h⟩ := Option.bind_eq_some_iff.mp h
      have hs₀ : Sound { c with requestBytes := c.requestBytes ++ c.uio.getdata } :=
        ⟨hs.ring, hs.noMore⟩
      obtain ⟨hn, hb, hc⟩ := rembytes_next hs₀ hr
      obtain ⟨hn', hb'⟩ := ih hn.sound h
      have hcopy : Next c { c with requestBytes := c.requestBytes ++ c.uio.getdata } :=
        .of_same hs₀ rfl rfl rfl rfl id id
      refine ⟨(hcopy.trans hn).trans hn', ?_⟩
      rw [hb', hb, hc, List.append_assoc]
      simp [Suiolite.contents, Suiolite.getdata]

theorem callCcb_next {acts : List ConAct} (hs : c.Sound) (h : c.callCcb acts = some c') :
    Next c c' ∧ c'.ccb = false := by
  unfold callCcb at h
  split at h
  · obtain ⟨c₀, h₀, rfl⟩ := Option.map_eq_some_iff.mp h
    have hn := acts_next hs h₀
    exact ⟨hn.trans (issueCcb_next hn.sound), rfl⟩
  · next hc =>
    cases h
    exact ⟨.of_same hs rfl rfl rfl rfl id id, by simpa using hc⟩

theorem delimitted_next {dres : Bool} {acts : List ConAct} (hs : c.Sound)
    (h : c.delimitted cfg dres acts = some c') : Next c c' ∧ c'.ccb = false := by
  obtain ⟨c₁, h₁, rfl⟩ := Option.map_eq_some_iff.mp h
  obtain ⟨hn, hc⟩ := callCcb_next hs h₁
  split
  · unfold endRead
    split
    · exact ⟨hn.trans (disableSelread_next hn.sound), hc⟩
    · exact ⟨hn, hc⟩
  · exact ⟨hn.trans (.of_same ⟨hn.sound.ring, hn.sound.noMore⟩ rfl rfl rfl rfl id id), hc⟩

theorem recvdBytes_next {acts : List ConAct} (hs : c.Sound) (h : c.recvdBytes cfg acts = some c') :
    Next c c' ∧ (c.isClone = true → c.decloned = false →
      Decided cfg (c.requestBytes ++ c.uio.contents) → c'.ccb = false) := by
  unfold recvdBytes at h
  split at h
  · next hno =>
    cases h
    refine ⟨.of_same hs rfl rfl rfl rfl id id, fun hk hd _ => ?_⟩
    simp [hk, hd] at hno
  · obtain ⟨c₁, hd, h⟩ := Option.bind_eq_some_iff.mp h
    obtain ⟨hn, hb⟩ := drain_next hs hd
    dsimp only at h
    split at h
    · obtain ⟨hn', hc⟩ := delimitted_next hn.sound h
      exact ⟨hn.trans hn', fun _ _ _ => hc⟩
    · next hund =>
      cases h
      refine ⟨hn, fun _ _ hdec => absurd ?_ hund⟩
      rw [hb]
      exact hdec

theorem readFail_registered (c : Ahttpcon) : c.readFail.Registered := by
  unfold readFail
  split
  · split
    · exact registered_of_stopped rfl
    · next ho => exact registered_of_closed (Bool.eq_false_iff.mpr ho)
  · refine registered_of_closed ?_
    unfold fail
    dsimp only
    split <;> rfl

theorem setccb_watched {acts : List ConAct} (hs : c.Sound) (hw : c.Watched) (hk : c.isClone = true)
    (hf : Fed cfg c (.setccb acts)) (h : c.setccb cfg acts = some c') : c'.Sound ∧ c'.Watched := by
  have hs₁ : Sound { c with ccb := true } := ⟨hs.ring, hs.noMore⟩
  unfold setccb at h
  dsimp only at h
  split at h
  · next hpre =>
    obtain ⟨hn, hdec⟩ := recvdBytes_next (c := { c with ccb := true, bytesRecv := _ })
        ⟨hs.ring, hs.noMore⟩ h
    refine ⟨hn.sound, ?_⟩
    obtain hz | hreg | ⟨hd, hdecided⟩ := hf
    · omega
    · exact fun _ => hn.registered hreg
    · -- the callback has been called, so only `rcb` can wait
      rintro (hr | hc)
      · exact (hn.rcb hr).elim (fun hr => hn.registered (hw (.inl hr))) id
      · cases (hdec hk hd hdecided).symm.trans hc
  · have hen := enableSelread_next hs₁
    have hreg := enableSelread_registered hs₁
    split at h
    · next c₁ he =>
      cases h
      rw [he] at hen hreg
      exact ⟨hen.sound, fun _ => hreg⟩
    · next c₁ he =>
      cases h
      rw [he] at hen
      exact ⟨(readFail_next hen.sound).sound, fun _ => readFail_registered c₁⟩

theorem input_watched {bs : Str} {acts : List ConAct} (hs : c.Sound) (hset : c.rcbset = true)
    (hf : Fed cfg c (.input bs acts)) (h : c.input cfg bs acts = some c') :
      c'.Sound ∧ c'.Watched := by
  unfold input at h
  split at h
  · next hfull =>
    cases h
    exact ⟨⟨hs.ring, hs.noMore⟩, fun _ _ _ => .inr ⟨hfull, hf hfull⟩⟩
  · split at h
    · cases h
    · next hbs =>
      have hlen : bs.length ≤ c.uio.free := Nat.le_of_not_lt fun h => hbs (.inr h)
      have hs₁ : Sound { c with
          uio := (c.uio.loadIov.readv bs).accountForNewBytes bs.length
          bytesRecv := c.bytesRecv + bs.length } := ⟨input_ring hs.ring hlen, hs.noMore⟩
      dsimp only at h
      split at h
      · have hstop := disableSelread_next hs₁
        have hn := (recvdBytes_next hstop.sound h).1
        exact ⟨hn.sound, fun _ => hn.registered (registered_of_stopped rfl)⟩
      · have hn := (recvdBytes_next hs₁ h).1
        exact ⟨hn.sound, fun _ => hn.registered fun _ _ => .inl hset⟩

end Step

theorem sound_watched_of_fed {c : Ahttpcon} (h : (system cfg).Reach (Fed cfg) c) :
    c.Sound ∧ c.Watched := by
  refine h.invariant (I := fun c => c.Sound ∧ c.Watched) ?_ fun c e c' _ hi hf hs => ?_
  · rintro _ ⟨isClone, l, recvLimit, hl, rfl⟩
    exact ⟨⟨Suiolite.Inv.alloc hl true, nofun⟩, nofun⟩
  · cases e with
    | act a =>
      have hn := act_next hi.1 hs
      exact ⟨hn.sound, hn.watched hi.2⟩
    | setccb acts =>
      simp only [system, step] at hs
      split at hs
      · next hk => exact setccb_watched hi.1 hi.2 hk hf hs
      · cases hs
    | input bs acts =>
      simp only [system, step] at hs
      split at hs
      · next hk =>
        rw [Bool.and_eq_true] at hk
        exact input_watched hi.1 hk.2 hf hs
      · cases hs

theorem rembytes_wakes {c : Ahttpcon} (hs : c.Sound) : c.Wakes := by
  intro ho hst hfull hscb n c' hn h
  obtain ⟨⟨docall, u⟩, hu, rfl⟩ := Option.map_eq_some_iff.mp h
  have hd : docall = true := by
    rw [(rembytes_ring hs.ring hu).2.2.2.1]
    simp [hfull, hscb, hn]
  have hmore : c.noMoreRead = false := by
    by_contra hmore
    cases hst.symm.trans (hs.noMore (Bool.of_not_eq_false hmore))
  simp [hd, enableSelread, ho, hmore]

theorem watched_of_fed {c : Ahttpcon} (h : (system cfg).Reach (Fed cfg) c) : c.Watched ∧ c.Wakes :=
  ⟨(sound_watched_of_fed cfg h).2, rembytes_wakes (sound_watched_of_fed cfg h).1⟩

def allHeaders : ConConfig where
  allHeaders := true
  maxline := 1024
  mem := fun _ => 0
  declones := fun _ _ => false
  hdrsizeLimit := 10240

/-- A buffer of four bytes is found full while the reader waits for more. -/
theorem watched_full : ∃ c, (system allHeaders).Reach (Fed allHeaders) c ∧ c.rcb = true ∧
    c.rcbset = false ∧ c.uio.full = true ∧ c.Watched ∧ c.Wakes := by
  have h₀ : (system allHeaders).Reach (Fed allHeaders)
      ⟨false, .alloc 4 true, 0, true, false, false, false, false, false, false, 0, [], 0⟩ :=
    .init ⟨false, 4, 0, by decide, rfl⟩
  have h₁ := h₀.step (show Fed allHeaders _ (.act (.setKeepaliveData [1, 2])) from trivial) rfl
  have h₂ := h₁.step (show Fed allHeaders _ (.act (.setrcb true)) from trivial) rfl
  have h₃ := h₂.step (show Fed allHeaders _ (.input [3, 4] []) from nofun) rfl
  have h₄ := h₃.step (show Fed allHeaders _ (.input [5] []) from fun _ => rfl) rfl
  exact ⟨_, h₄, rfl, rfl, rfl, watched_of_fed allHeaders h₄⟩

/-- The first bytes of a request that has been handed back: nobody reads the others. -/
theorem not_watched_preloaded : ∃ c, (system allHeaders).Reachable c ∧ ¬ c.Watched := by
  have h : ∃ c, (system allHeaders).exec
      ⟨true, .alloc 1024 true, 0, true, false, false, false, false, false, false, 0, [], 0⟩
      [.act (.setKeepaliveData (ascii ['G', 'E', 'T'])), .setccb []] = some c ∧ c.isOpen = true ∧
      c.stopped = false ∧ c.ccb = true ∧ c.rcbset = false ∧ c.uio.full = false := by
    decide
  obtain ⟨c, hc, ho, hst, hccb, hset, hfull⟩ := h
  refine ⟨c, System.reachable_exec _ ⟨true, 1024, 0, by decide, rfl⟩ hc, fun hw => ?_⟩
  have hreg := hw (.inr hccb) ho hst
  simp [hset, hfull] at hreg

end Ahttpcon

end Okws
