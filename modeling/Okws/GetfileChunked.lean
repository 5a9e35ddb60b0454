import Mathlib
import Okws.Getchunk

universe u v

namespace Okws

/-- The loop of `getfile_chunked`.  What is on the way are requests, answers, and the results of the
calls of `getchunk`.  Not in the code are the requests that were `asked`, the `file` of the header,
and the time and the state of the scanner in which the header was made. -/
structure ChunkTransfer (H : Type u) (Z : Type v) where
  hdr : ChunksHdr H
  opts : UInt32
  buf : Str
  i : Nat := 0
  nsent : Nat := 0
  nrecv : Nat := 0
  ok : Bool := true
  requests : List (GetchunkArg H) := []
  replies : List (GetchunkArg H × GetchunkRes) := []
  ready : List Bool := []
  status : Option XpubStatus := none
  out : Option (XFile H Z) := none
  asked : List (GetchunkArg H) := []
  file : PubdFile H Z
  since : Nat
  scan : PubScan

/-- `memcpy (buf + offset, data)`. -/
def writeAt (buf : Str) (offset : Nat) (data : Str) : Str :=
  buf.take offset ++ data ++ buf.drop (offset + data.length)

namespace ChunkTransfer

variable {H : Type u} {Z : Type v} [DecidableEq H] (sha1 : Str → H) (maxsz ws : Nat)
  (str2xdr : Str → Option (XFile H Z)) (x : ChunkTransfer H Z)

def more : Bool := (x.i < x.hdr.datasize || x.nrecv < x.nsent) && x.ok

def sends : Bool := x.i < x.hdr.datasize && x.nsent - x.nrecv < ws

def send : ChunkTransfer H Z :=
  let arg : GetchunkArg H := ⟨x.hdr.dathash, x.opts, x.i, min maxsz (x.hdr.datasize - x.i)⟩
  { x with
    nsent := x.nsent + 1
    i := x.i + maxsz
    requests := x.requests ++ [arg]
    asked := arg :: x.asked }

/-- `getchunk`, when the answer has come. -/
def answer (arg : GetchunkArg H) : GetchunkRes → ChunkTransfer H Z
  | .failed _ => { x with ready := x.ready ++ [false] }
  | .chunk _ data =>
    if data.length ≠ arg.size then { x with ready := x.ready ++ [false] }
    else { x with buf := writeAt x.buf arg.offset data, ready := x.ready ++ [true] }

def recv (nok : Bool) (ready : List Bool) : ChunkTransfer H Z :=
  { x with nrecv := x.nrecv + 1, ready := ready, ok := x.ok && nok }

def finish : ChunkTransfer H Z :=
  if x.ok then
    if sha1 x.buf ≠ x.hdr.xdrhash then { x with status := some (.corruption "Hash mismatch") }
    else match str2xdr x.buf with
      | none => { x with status := some (.corruption "Demarshall of chunks failed") }
      | some file => { x with status := some .ok, out := some file }
  else { x with status := some (.corruption "Not all chunks retrieved") }

/-- Some chunk is still to be sent by `pubd`. -/
def Unserved : Prop := x.i < x.hdr.datasize ∨ x.requests ≠ []

def covers (o : Nat) (arg : GetchunkArg H) : Bool := arg.offset ≤ o && o < arg.offset + arg.size

def asks (o : Nat) : Nat := x.asked.countP (covers o)

def rank : Nat := 4 * (x.hdr.datasize - x.i) + 3 * x.requests.length + 2 * x.replies.length +
  x.ready.length + x.status.isNone.toNat

end ChunkTransfer

/-- A client, and `pubd` with what is asked by others. -/
structure ChunkNet (H : Type u) (Z : Type v) where
  pub : Pubd H Z
  transfer : Option (ChunkTransfer H Z) := none

namespace ChunkNet

variable {H : Type u} {Z : Type v} [DecidableEq H] (sha1 : Str → H) (jail2real : Str → Str)
  (parse : PubScan → Str → Str → UInt32 → Option Z × PubScan) (xdr2str : XFile H Z → Str)
  (str2xdr : Str → Option (XFile H Z)) (maxsz ws : Nat) (s : ChunkNet H Z)

/-- Calls by others, changes of files, and the steps of the transfer.  The answers come in any
order. -/
inductive Event (H : Type u)
  | getfile (arg : GetfileArg H)
  | getchunk (arg : GetchunkArg H)
  | modify (rfn content : Str) (regular : Bool)
  | delete (rfn : Str)
  | advance (secs : Nat)
  | refresh
  | start (fn : Str) (opts : UInt32)
  | send
  | serve (n : Nat)
  | reply (n : Nat)
  | recv
  | finish

def Event.ours : Event H → Bool
  | .send | .serve _ | .reply _ | .recv | .finish => true
  | _ => false

def cache (e : SrvCache.Event) : Option (ChunkNet H Z) :=
  (s.pub.srv.act sha1 jail2real e).map fun srv => { s with pub := { s.pub with srv := srv } }

/-- The `transfer` starts where the file is too long. -/
def start (fn : Str) (opts : UInt32) : Option (ChunkNet H Z) :=
  let arg : GetfileArg H := ⟨fn, opMask opts, .none, maxsz % 2 ^ 32⟩
  match s.pub.publish sha1 jail2real parse fn .none (opMask opts),
    s.pub.getfile sha1 jail2real parse xdr2str arg with
  | (.ok f, _), (.chunked hdr, pub) => some { s with
    pub := pub
    transfer := some {
      hdr := hdr
      opts := opts
      buf := List.replicate hdr.datasize 0xcd
      file := f
      since := s.pub.srv.now
      scan := s.pub.scan } }
  | _, (_, pub) => some { s with pub := pub }

def step (e : Event H) : Option (ChunkNet H Z) := match e with
  | .getfile arg => some { s with pub := (s.pub.getfile sha1 jail2real parse xdr2str arg).2 }
  | .getchunk arg => some { s with pub := (s.pub.getchunk arg).2 }
  | .modify rfn content regular => s.cache sha1 jail2real (.modify rfn content regular)
  | .delete rfn => s.cache sha1 jail2real (.delete rfn)
  | .advance secs => s.cache sha1 jail2real (.advance secs)
  | .refresh => if s.pub.useCache then s.cache sha1 jail2real .refresh else none
  | .start fn opts =>
    if s.transfer.isNone then s.start sha1 jail2real parse xdr2str maxsz fn opts else none
  | .send => s.transfer.bind fun x =>
    if x.status = none ∧ x.more ∧ x.sends ws then
      some { s with transfer := some (x.send maxsz) }
    else none
  | .serve n => s.transfer.bind fun x => x.requests[n]?.map fun arg =>
    let (res, pub) := s.pub.getchunk arg
    { s with
      pub := pub
      transfer := some { x with
        requests := x.requests.eraseIdx n
        replies := x.replies ++ [(arg, res)] } }
  | .reply n => s.transfer.bind fun x => x.replies[n]?.map fun (arg, res) =>
    { s with transfer := some ({ x with replies := x.replies.eraseIdx n }.answer arg res) }
  | .recv => s.transfer.bind fun x => match x.ready with
    | [] => none
    | nok :: ready =>
      if x.status = none ∧ x.more ∧ ¬ x.sends ws then
        some { s with transfer := some (x.recv nok ready) }
      else none
  | .finish => s.transfer.bind fun x =>
    if x.status = none ∧ ¬ x.more then
      some { s with transfer := some (x.finish sha1 str2xdr) }
    else none

def system : Lib.System (ChunkNet H Z) (Event H) where
  init s := (∃ timeout, s.pub.held = .empty timeout true) ∧ s.transfer = none
  step := step sha1 jail2real parse xdr2str str2xdr maxsz ws

/-- The transfer ends with the file of the header, after every byte was asked for once, and there
are never too many requests without an answer. -/
structure Sound : Prop where
  delivered : ∀ x st, s.transfer = some x → x.status = some st →
    st = .ok ∧ x.buf = x.file.xdr xdr2str ∧ x.out = some x.file.toXdr
  once : ∀ x o, s.transfer = some x → x.asks o ≤ (if o < x.hdr.datasize then 1 else 0) ∧
    (x.status ≠ none → o < x.hdr.datasize → x.asks o = 1)
  window : ∀ x, s.transfer = some x → x.requests.length + x.replies.length ≤ ws
  live : ∀ x, s.transfer = some x → x.status = none → ∃ e t, e.ours = true ∧
    s.step sha1 jail2real parse xdr2str str2xdr maxsz ws e = some t
  ends : ∀ x e t, s.transfer = some x →
    s.step sha1 jail2real parse xdr2str str2xdr maxsz ws e = some t →
    ∃ y, t.transfer = some y ∧ if e.ours then y.rank < x.rank else y = x

/-- While chunks are to be sent, no other file that has the same content is held in the place of the
file, nor is the file itself as the scanner reads it in another state, and the lease does not expire.
Files are shorter than the numbers on the wire can tell. -/
def Calm : Event H → Prop
  | .start fn opts => ∀ f, (s.pub.publish sha1 jail2real parse fn .none (opMask opts)).1 = .ok f →
    (f.xdr xdr2str).length < 2 ^ 32
  | .getfile arg => ∀ x, s.transfer = some x → x.Unserved → s.pub.useCache = false → ∀ hsh f,
    s.pub.srv.file2hash sha1 (jail2real arg.filename) = some hsh →
    (s.pub.parseFile jail2real parse arg.filename hsh s.pub.srv.now arg.options).1 = some f →
    arg.maxsz < (f.xdr xdr2str).length → hsh = x.hdr.dathash →
    opMask arg.options = opMask x.opts → arg.filename = x.file.jfn ∧ s.pub.scan = x.scan
  | .advance secs => ∀ x, s.transfer = some x → x.Unserved →
    s.pub.held.timeout = 0 ∨ s.pub.srv.now + secs ≤ x.since + s.pub.held.timeout
  | _ => True

structure Part (hdr : ChunksHdr H) (opts : UInt32) (arg : GetchunkArg H) : Prop where
  hash : arg.hash = hdr.dathash
  opts : arg.opts = opts
  pos : 0 < arg.size
  le : arg.offset + arg.size ≤ hdr.datasize

structure Loop (x : ChunkTransfer H Z) : Prop where
  datasize : x.hdr.datasize = (x.file.xdr xdr2str).length
  xdrhash : x.hdr.xdrhash = sha1 (x.file.xdr xdr2str)
  dathash : x.hdr.dathash = x.file.hash
  key : Okws.key x.file = srvCacheKey x.file.hash x.opts
  ok : x.ok = true
  ready : ∀ b ∈ x.ready, b = true
  sent : x.nsent = x.nrecv + x.requests.length + x.replies.length + x.ready.length
  window : x.nsent - x.nrecv ≤ ws
  length : x.buf.length = x.hdr.datasize
  requests : ∀ arg ∈ x.requests, Part x.hdr x.opts arg
  replies : ∀ r ∈ x.replies, Part x.hdr x.opts r.1 ∧
    r.2 = .chunk r.1.offset (((x.file.xdr xdr2str).drop r.1.offset).take r.1.size)
  bytes : ∀ o, o < x.hdr.datasize → o < x.i → x.buf[o]? = (x.file.xdr xdr2str)[o]? ∨
    (∃ arg ∈ x.requests, ChunkTransfer.covers o arg = true) ∨
    ∃ r ∈ x.replies, ChunkTransfer.covers o r.1 = true
  once : ∀ o, x.asks o = if o < x.hdr.datasize ∧ o < x.i then 1 else 0
  status : ∀ st, x.status = some st → st = .ok ∧ x.buf = x.file.xdr xdr2str ∧
    x.out = some x.file.toXdr ∧ x.hdr.datasize ≤ x.i

/-- The file is held until it is sent, and without a cache it is what the disk had. -/
structure Leased (x : ChunkTransfer H Z) : Prop where
  held : x.Unserved → s.pub.held.Held (PubdFile.Same xdr2str x.file) x.since ∧
    x.since ≤ s.pub.srv.now ∧
    (s.pub.held.timeout = 0 ∨ s.pub.srv.now ≤ x.since + s.pub.held.timeout)
  origin : s.pub.useCache = false → ∃ content z, sha1 content = x.file.hash ∧
    (parse x.scan x.file.jfn content (opMask x.opts)).1 = some z ∧
    x.file.toXdr = ⟨x.file.jfn, jail2real x.file.jfn, x.file.hash, z, opMask x.opts⟩

structure Inv : Prop where
  good : s.pub.Good xdr2str
  loop : ∀ x, s.transfer = some x → Loop sha1 xdr2str ws x
  leased : ∀ x, s.transfer = some x → s.Leased sha1 jail2real parse xdr2str x

section Invariant

variable {sha1 : Str → H} {jail2real : Str → Str}
  {parse : PubScan → Str → Str → UInt32 → Option Z × PubScan}
  {xdr2str : XFile H Z → Str} {str2xdr : Str → Option (XFile H Z)} {maxsz ws : Nat}
  {s t : ChunkNet H Z} {x : ChunkTransfer H Z}

theorem length_writeAt {buf data : Str} {offset : Nat} (h : offset + data.length ≤ buf.length) :
    (writeAt buf offset data).length = buf.length := by
  simp only [writeAt, List.length_append, List.length_take, List.length_drop]
  omega

theorem getElem?_writeAt {buf data : Str} {offset o : Nat}
    (h : offset + data.length ≤ buf.length) : (writeAt buf offset data)[o]? =
      if offset ≤ o ∧ o < offset + data.length then data[o - offset]? else buf[o]? := by
  have hlen : (buf.take offset).length = offset := by
    rw [List.length_take]
    omega
  unfold writeAt
  rw [List.getElem?_append, List.getElem?_append, List.getElem?_take, List.getElem?_drop,
    List.length_append, hlen]
  by_cases hlt : o < offset
  · rw [if_pos (by omega), if_pos hlt, if_pos hlt, if_neg (by omega)]
  · by_cases hend : o < offset + data.length
    · rw [if_pos hend, if_neg hlt, if_pos ⟨by omega, hend⟩]
    · rw [if_neg hend, if_neg (by omega)]
      congr 1
      omega

section Loop

omit [DecidableEq H]

theorem Loop.unserved_send (h : x.sends ws = true) : x.Unserved := by
  unfold ChunkTransfer.sends at h
  exact .inl (by simpa using (Bool.and_eq_true_iff.mp h).1)

theorem Loop.send (h : Loop sha1 xdr2str ws x) (hmax : 0 < maxsz) (hstatus : x.status = none)
    (hs : x.sends ws = true) : Loop sha1 xdr2str ws (x.send maxsz) := by
  obtain ⟨hi, hwin⟩ := Bool.and_eq_true_iff.mp hs
  have hi : x.i < x.hdr.datasize := of_decide_eq_true hi
  have hwin : x.nsent - x.nrecv < ws := of_decide_eq_true hwin
  have hsent := h.sent
  have hpart : Part x.hdr x.opts ⟨x.hdr.dathash, x.opts, x.i, min maxsz (x.hdr.datasize - x.i)⟩ :=
    ⟨rfl, rfl, by dsimp only; omega, by dsimp only; omega⟩
  refine ⟨h.datasize, h.xdrhash, h.dathash, h.key, h.ok, h.ready, ?_, ?_, h.length, ?_, h.replies,
    ?_, ?_, ?_⟩
  · simp only [ChunkTransfer.send, List.length_append, List.length_singleton]
    omega
  · simp only [ChunkTransfer.send]
    omega
  · intro arg harg
    obtain harg | harg := List.mem_append.mp harg
    · exact h.requests arg harg
    · rw [List.mem_singleton.mp harg]
      exact hpart
  · intro o ho hlt
    by_cases hoi : o < x.i
    · exact (h.bytes o ho hoi).imp_right (Or.imp_left fun ⟨arg, harg, hc⟩ =>
        ⟨arg, List.mem_append_left _ harg, hc⟩)
    · refine .inr (.inl ⟨_, List.mem_append_right _ List.mem_cons_self, ?_⟩)
      dsimp only [ChunkTransfer.send] at ho hlt
      simp only [ChunkTransfer.covers, Bool.and_eq_true, decide_eq_true_eq]
      omega
  · intro o
    have honce := h.once o
    unfold ChunkTransfer.asks at *
    dsimp only [ChunkTransfer.send]
    rw [List.countP_cons, honce]
    simp only [ChunkTransfer.covers, Bool.and_eq_true, decide_eq_true_eq]
    grind
  · intro st hst
    dsimp only [ChunkTransfer.send] at hst
    rw [hstatus] at hst
    cases hst

theorem Loop.serve (h : Loop sha1 xdr2str ws x) {n : Nat} {arg : GetchunkArg H}
    (harg : x.requests[n]? = some arg) : Loop sha1 xdr2str ws { x with
      requests := x.requests.eraseIdx n
      replies := x.replies ++ [(arg, .chunk arg.offset
        (((x.file.xdr xdr2str).drop arg.offset).take arg.size))] } := by
  obtain ⟨hn, rfl⟩ := List.getElem?_eq_some_iff.mp harg
  have hlen := List.length_eraseIdx_of_lt hn
  have hsent := h.sent
  refine ⟨h.datasize, h.xdrhash, h.dathash, h.key, h.ok, h.ready, ?_, h.window, h.length,
    fun a ha => h.requests a (List.mem_of_mem_eraseIdx ha), ?_, ?_, h.once, h.status⟩
  · simp only [hlen, List.length_append, List.length_singleton]
    omega
  · intro r hr
    obtain hr | hr := List.mem_append.mp hr
    · exact h.replies r hr
    · rw [List.mem_singleton.mp hr]
      exact ⟨h.requests _ (List.getElem_mem hn), rfl⟩
  · intro o ho hlt
    obtain hbuf | ⟨a, ha, hc⟩ | ⟨r, hr, hc⟩ := h.bytes o ho hlt
    · exact .inl hbuf
    · -- the request is another one, or it is answered
      obtain ⟨m, hm, rfl⟩ := List.getElem_of_mem ha
      by_cases hmn : m = n
      · subst hmn
        exact .inr (.inr ⟨_, List.mem_append_right _ List.mem_cons_self, hc⟩)
      · exact .inr (.inl ⟨_, List.mem_eraseIdx_iff_getElem.mpr ⟨m, hm, hmn, rfl⟩, hc⟩)
    · exact .inr (.inr ⟨r, List.mem_append_left _ hr, hc⟩)

theorem Loop.reply (h : Loop sha1 xdr2str ws x) {n : Nat} {arg : GetchunkArg H} {res : GetchunkRes}
    (hr : x.replies[n]? = some (arg, res)) : Loop sha1 xdr2str ws
      (ChunkTransfer.answer { x with replies := x.replies.eraseIdx n } arg res) := by
  obtain ⟨hn, hget⟩ := List.getElem?_eq_some_iff.mp hr
  have hlen := List.length_eraseIdx_of_lt hn
  have hsent := h.sent
  obtain ⟨hp, hres⟩ := h.replies _ (List.getElem_mem hn)
  rw [hget] at hp hres
  dsimp only at hp hres
  have hle : arg.offset + arg.size ≤ (x.file.xdr xdr2str).length := h.datasize ▸ hp.le
  subst hres
  generalize hdata : ((x.file.xdr xdr2str).drop arg.offset).take arg.size = data at *
  have hdlen : data.length = arg.size := by
    rw [← hdata, List.length_take, List.length_drop]
    omega
  have hend : arg.offset + data.length ≤ x.buf.length := by
    rw [hdlen, h.length]
    exact hp.le
  have hdget (o : Nat) (hlo : arg.offset ≤ o) (hhi : o < arg.offset + data.length) :
      data[o - arg.offset]? = (x.file.xdr xdr2str)[o]? := by
    rw [← hdata, List.getElem?_take, List.getElem?_drop, if_pos (by omega)]
    congr 1
    omega
  have hbuf (o : Nat) (ho : x.buf[o]? = (x.file.xdr xdr2str)[o]? ∨
      ChunkTransfer.covers o arg = true) :
      (writeAt x.buf arg.offset data)[o]? = (x.file.xdr xdr2str)[o]? := by
    rw [getElem?_writeAt hend]
    split
    · next hin => exact hdget o hin.1 hin.2
    · next hout =>
      refine ho.resolve_right fun hc => hout ?_
      rw [hdlen]
      simpa [ChunkTransfer.covers] using hc
  have hanswer : ChunkTransfer.answer { x with replies := x.replies.eraseIdx n } arg
      (.chunk arg.offset data) = { x with
        replies := x.replies.eraseIdx n
        buf := writeAt x.buf arg.offset data
        ready := x.ready ++ [true] } := if_neg (not_not_intro hdlen)
  rw [hanswer]
  refine ⟨h.datasize, h.xdrhash, h.dathash, h.key, h.ok, ?_, ?_, h.window, ?_, h.requests,
    fun r hr => h.replies r (List.mem_of_mem_eraseIdx hr), ?_, h.once, ?_⟩
  · intro b hb
    obtain hb | hb := List.mem_append.mp hb
    · exact h.ready b hb
    · exact List.mem_singleton.mp hb
  · simp only [hlen, List.length_append, List.length_singleton]
    omega
  · exact (length_writeAt hend).trans h.length
  · intro o ho hlt
    obtain hbyte | ⟨a, ha, hc⟩ | ⟨r, hr, hc⟩ := h.bytes o ho hlt
    · exact .inl (hbuf o (.inl hbyte))
    · exact .inr (.inl ⟨a, ha, hc⟩)
    · obtain ⟨m, hm, rfl⟩ := List.getElem_of_mem hr
      by_cases hmn : m = n
      · subst hmn
        rw [hget] at hc
        exact .inl (hbuf o (.inr hc))
      · exact .inr (.inr ⟨_, List.mem_eraseIdx_iff_getElem.mpr ⟨m, hm, hmn, rfl⟩, hc⟩)
  · intro st hst
    obtain ⟨hok, heq, hout, hi⟩ := h.status st hst
    refine ⟨hok, ?_, hout, hi⟩
    refine List.ext_getElem? fun o => ?_
    exact hbuf o (.inl (by rw [heq]))

theorem Loop.recv (h : Loop sha1 xdr2str ws x) {nok : Bool} {ready : List Bool}
    (hready : x.ready = nok :: ready) : Loop sha1 xdr2str ws (x.recv nok ready) := by
  have hsent := h.sent
  have hwin := h.window
  have hnok : nok = true := h.ready nok (by rw [hready]; exact List.mem_cons_self)
  rw [hready, List.length_cons] at hsent
  refine ⟨h.datasize, h.xdrhash, h.dathash, h.key, ?_, ?_, ?_, ?_, h.length, h.requests, h.replies,
    h.bytes, h.once, h.status⟩
  · rw [ChunkTransfer.recv, hnok, h.ok]
    rfl
  · intro b hb
    exact h.ready b (by rw [hready]; exact List.mem_cons_of_mem _ hb)
  · dsimp only [ChunkTransfer.recv]
    omega
  · dsimp only [ChunkTransfer.recv]
    omega

theorem Loop.full (h : Loop sha1 xdr2str ws x) (hmore : x.more = false) :
    x.hdr.datasize ≤ x.i ∧ x.buf = x.file.xdr xdr2str := by
  have hsent := h.sent
  rw [ChunkTransfer.more, h.ok, Bool.and_true, Bool.or_eq_false_iff] at hmore
  have hi : ¬ x.i < x.hdr.datasize := of_decide_eq_false hmore.1
  have hn : ¬ x.nrecv < x.nsent := of_decide_eq_false hmore.2
  have hreq : x.requests = [] := List.eq_nil_of_length_eq_zero (by omega)
  have hrep : x.replies = [] := List.eq_nil_of_length_eq_zero (by omega)
  refine ⟨by omega, List.ext_getElem? fun o => ?_⟩
  by_cases ho : o < x.hdr.datasize
  · obtain hbyte | ⟨a, ha, -⟩ | ⟨r, hr, -⟩ := h.bytes o ho (by omega)
    · exact hbyte
    · rw [hreq] at ha
      cases ha
    · rw [hrep] at hr
      cases hr
  · have hlen := h.length
    have hdata := h.datasize
    rw [List.getElem?_eq_none (by omega), List.getElem?_eq_none (by omega)]

end Loop

theorem Loop.finish (h : Loop sha1 xdr2str ws x)
    (hxdr : ∀ file : XFile H Z, str2xdr (xdr2str file) = some file) (hmore : x.more = false) :
    Loop sha1 xdr2str ws (x.finish sha1 str2xdr) := by
  obtain ⟨hi, hbuf⟩ := h.full hmore
  have hfinish : x.finish sha1 str2xdr =
      { x with status := some .ok, out := some x.file.toXdr } := by
    have hback := hxdr x.file.toXdr
    rw [ChunkTransfer.finish, if_pos h.ok, if_neg (not_not_intro (by rw [hbuf, h.xdrhash])), hbuf,
      PubdFile.xdr, hback]
  rw [hfinish]
  refine ⟨h.datasize, h.xdrhash, h.dathash, h.key, h.ok, h.ready, h.sent, h.window, h.length,
    h.requests, h.replies, h.bytes, h.once, fun st hst => ?_⟩
  cases hst
  exact ⟨rfl, hbuf, rfl, hi⟩

theorem travKey_now {c d : SrvCache H} {k : Str} (h : c.travKey sha1 k = some d) :
    d.now = c.now := by
  unfold SrvCache.travKey at h
  dsimp only at h
  split at h
  · cases h
  · split at h
    · cases h
      rfl
    · split at h
      · cases h
        rfl
      · split at h
        · split at h <;> cases h <;> rfl
        · cases h
          rfl

omit [DecidableEq H] in
theorem travNkey_now {c d : SrvCache H} {k : Str} (h : c.travNkey k = some d) : d.now = c.now := by
  unfold SrvCache.travNkey at h
  dsimp only at h
  split at h
  · cases h
  · split at h <;> cases h <;> rfl

omit [DecidableEq H] in
theorem foldlM_now {f : SrvCache H → Str → Option (SrvCache H)}
    (hf : ∀ c k d, f c k = some d → d.now = c.now) {ks : List Str} {c d : SrvCache H}
    (h : ks.foldlM f c = some d) : d.now = c.now := by
  induction ks generalizing c with
  | nil =>
    cases h
    rfl
  | cons k ks ih =>
    obtain ⟨e, he, hd⟩ := Option.bind_eq_some_iff.mp h
    exact (ih hd).trans (hf c k e he)

theorem traverse_now {c d : SrvCache H} (h : c.traverse sha1 = some d) : d.now = c.now := by
  obtain ⟨e, he, hd⟩ := Option.bind_eq_some_iff.mp h
  have hfirst := foldlM_now (fun _ _ _ => travKey_now) he
  have hsecond := foldlM_now (fun _ _ _ => travNkey_now) hd
  exact hsecond.trans hfirst

omit [DecidableEq H] in
theorem Leased.mono (h : s.Leased sha1 jail2real parse xdr2str x) {y : ChunkTransfer H Z}
    (hfile : y.file = x.file) (hsince : y.since = x.since) (hopts : y.opts = x.opts)
    (hscan : y.scan = x.scan) (hun : y.Unserved → x.Unserved) (hpub : t.pub = s.pub) :
    t.Leased sha1 jail2real parse xdr2str y := by
  obtain ⟨hheld, horigin⟩ := h
  constructor
  · rw [hpub, hfile, hsince]
    exact fun hy => hheld (hun hy)
  · rw [hpub, hfile, hopts, hscan]
    exact horigin

omit [DecidableEq H] in
theorem Inv.env (h : s.Inv sha1 jail2real parse xdr2str ws) (htransfer : t.transfer = s.transfer)
    (hgood : t.pub.Good xdr2str) (hcache : t.pub.useCache = s.pub.useCache)
    (htimeout : t.pub.held.timeout = s.pub.held.timeout) (hnow : s.pub.srv.now ≤ t.pub.srv.now)
    (hheld : ∀ x, s.transfer = some x → x.Unserved →
      t.pub.held.Held (PubdFile.Same xdr2str x.file) x.since ∧
      (s.pub.held.timeout = 0 ∨ t.pub.srv.now ≤ x.since + s.pub.held.timeout)) :
    t.Inv sha1 jail2real parse xdr2str ws := by
  refine ⟨hgood, fun x hx => ?_, fun x hx => ?_⟩
  · rw [htransfer] at hx
    exact h.loop x hx
  · rw [htransfer] at hx
    obtain ⟨hx', horigin⟩ := h.leased x hx
    constructor
    · intro hun
      rw [htimeout]
      exact ⟨(hheld x hx hun).1, Nat.le_trans (hx' hun).2.1 hnow, (hheld x hx hun).2⟩
    · rw [hcache]
      exact horigin

omit [DecidableEq H] in
theorem file2hash_eq_some {c : SrvCache H} {rfn : Str} {hsh : H}
    (h : c.file2hash sha1 rfn = some hsh) : ∃ f, c.files rfn = some f ∧ sha1 f.content = hsh := by
  unfold SrvCache.file2hash at h
  split at h
  · next f hf =>
    split at h
    · cases h
      exact ⟨f, hf, rfl⟩
    · cases h
  · cases h

theorem Inv.getfile (h : s.Inv sha1 jail2real parse xdr2str ws) (hsha : Function.Injective sha1)
    {arg : GetfileArg H} (hcalm : s.Calm sha1 jail2real parse xdr2str (.getfile arg)) :
    Inv sha1 jail2real parse xdr2str ws
      { s with pub := (s.pub.getfile sha1 jail2real parse xdr2str arg).2 } := by
  obtain ⟨hcache, hnow, -, htimeout⟩ := Pubd.getfile_frame sha1 jail2real parse h.good arg
  refine h.env rfl (h.good.getfile sha1 jail2real parse arg) hcache htimeout
    (Nat.le_of_eq hnow.symm)
    fun x hx hun => ?_
  obtain ⟨hheld, hsince, hlease⟩ := (h.leased x hx).held hun
  refine ⟨h.good.getfile_held arg hheld hsince hlease ?_, by rwa [hnow]⟩
  intro hcache hsh f hhash hf hlen hkey
  have hloop := h.loop x hx
  obtain ⟨content, z, hcontent, hz, hxdr⟩ := (h.leased x hx).origin hcache
  obtain ⟨hfkey, hfhash, -, file, z', hfile, hz', hfxdr⟩ := Pubd.parseFile_eq_some hf
  obtain ⟨file', hfile', hcontent'⟩ := file2hash_eq_some hhash
  cases hfile.symm.trans hfile'
  -- the other file has the key of this one, so that it has its content and its name
  have heq : srvCacheKey hsh arg.options = srvCacheKey x.file.hash x.opts := by
    rw [← hfkey, hkey, hloop.key]
  have hsame : hsh = x.file.hash := congrArg SrvCacheKey.filehash heq
  have hmask : opMask arg.options = opMask x.opts := congrArg SrvCacheKey.opts heq
  obtain ⟨hname, hscan⟩ :=
    hcalm x hx hun hcache hsh f hhash hf hlen (hsame.trans hloop.dathash.symm) hmask
  have hbytes : file.content = content := hsha (hcontent'.trans (hsame.trans hcontent.symm))
  rw [hname, hbytes, hmask, hscan, hz] at hz'
  cases hz'
  rw [PubdFile.xdr, PubdFile.xdr, hfxdr, hxdr, hname, hsame, hmask]

theorem Inv.getchunk (h : s.Inv sha1 jail2real parse xdr2str ws) (arg : GetchunkArg H) :
    Inv sha1 jail2real parse xdr2str ws { s with pub := (s.pub.getchunk arg).2 } := by
  refine h.env rfl (h.good.getchunk arg) rfl Timehash.get_timeout (Nat.le_refl _)
    fun x hx hun => ?_
  obtain ⟨hheld, hsince, hlease⟩ := (h.leased x hx).held hun
  exact ⟨hheld.get hlease hsince, hlease⟩

theorem Inv.cache (h : s.Inv sha1 jail2real parse xdr2str ws) {e : SrvCache.Event} (secs : Nat)
    (hs : s.cache sha1 jail2real e = some t)
    (hnow : ∀ srv, s.pub.srv.act sha1 jail2real e = some srv → srv.now = s.pub.srv.now + secs)
    (hlease : secs = 0 ∨ ∀ x, s.transfer = some x → x.Unserved →
      s.pub.held.timeout = 0 ∨ s.pub.srv.now + secs ≤ x.since + s.pub.held.timeout) :
    t.Inv sha1 jail2real parse xdr2str ws := by
  obtain ⟨srv, hsrv, rfl⟩ := Option.map_eq_some_iff.mp hs
  have hnow := hnow srv hsrv
  refine h.env rfl ⟨h.good.rejuvenates, h.good.xdrOpaque⟩ rfl rfl
    (by dsimp only; omega) fun x hx hun => ?_
  obtain ⟨hheld, -, hold⟩ := (h.leased x hx).held hun
  refine ⟨hheld, ?_⟩
  dsimp only
  rw [hnow]
  obtain rfl | hlease := hlease
  · exact hold
  · exact hlease x hx hun

theorem Inv.start (h : s.Inv sha1 jail2real parse xdr2str ws) (hnone : s.transfer = none)
    {fn : Str} {opts : UInt32} (hcalm : s.Calm sha1 jail2real parse xdr2str (.start fn opts))
    (hs : s.start sha1 jail2real parse xdr2str maxsz fn opts = some t) :
    t.Inv sha1 jail2real parse xdr2str ws := by
  have hgood := h.good.getfile sha1 jail2real parse ⟨fn, opMask opts, .none, maxsz % 2 ^ 32⟩
  obtain ⟨hcache, hnow, -, htimeout⟩ :=
    Pubd.getfile_frame sha1 jail2real parse h.good ⟨fn, opMask opts, .none, maxsz % 2 ^ 32⟩
  unfold ChunkNet.start at hs
  dsimp only at hs
  split at hs
  · next f _ hdr pub hpub hget =>
    cases hs
    obtain ⟨g, hg, hhdr, hkey, hheld, horigin⟩ := h.good.getfile_chunked hget
    rw [hget] at hgood hcache hnow htimeout
    dsimp only at hg hkey hheld horigin hgood hcache hnow htimeout
    have hf : f = g := by
      rw [hpub] at hg
      exact Except.ok.inj hg
    subst hf
    have hshort : (f.xdr xdr2str).length < 2 ^ 32 := hcalm f hg
    have hsize : hdr.datasize = (f.xdr xdr2str).length := by
      rw [hhdr]
      exact Nat.mod_eq_of_lt hshort
    refine ⟨hgood, fun x hx => ?_, fun x hx => ?_⟩
    · cases hx
      refine ⟨hsize, by rw [hhdr], by rw [hhdr], ?_, rfl, nofun, rfl, Nat.zero_le _,
        List.length_replicate, nofun, nofun, fun o _ ho => absurd ho (Nat.not_lt_zero o), ?_, nofun⟩
      · rw [hkey]
        exact congrArg (SrvCacheKey.mk f.hash) (opMask_opMask opts)
      · exact fun o => (if_neg fun ho => Nat.not_lt_zero o ho.2).symm
    · cases hx
      refine ⟨fun _ => ⟨hheld, Nat.le_of_eq hnow.symm, ?_⟩, ?_⟩
      · dsimp only
        rw [hnow]
        exact .inr (Nat.le_add_right _ _)
      · rw [hcache]
        intro hholder
        obtain ⟨hhash, hparse⟩ := horigin hholder
        obtain ⟨-, -, hname, file, z, hfile, hz, hxdr⟩ := Pubd.parseFile_eq_some hparse
        obtain ⟨file', hfile', hcontent⟩ := file2hash_eq_some hhash
        cases hfile.symm.trans hfile'
        rw [opMask_opMask] at hz hxdr
        dsimp only
        rw [hname]
        exact ⟨file.content, z, hcontent, hz, hxdr⟩
  · next pub hget _ =>
    cases hs
    rw [hget] at hgood
    refine ⟨hgood, fun x hx => ?_, fun x hx => ?_⟩
    · rw [hnone] at hx
      cases hx
    · rw [hnone] at hx
      cases hx

theorem Inv.serve (h : s.Inv sha1 jail2real parse xdr2str ws) {n : Nat} {arg : GetchunkArg H}
    (hx : s.transfer = some x) (harg : x.requests[n]? = some arg) :
    Inv sha1 jail2real parse xdr2str ws { s with
      pub := (s.pub.getchunk arg).2
      transfer := some { x with
        requests := x.requests.eraseIdx n
        replies := x.replies ++ [(arg, (s.pub.getchunk arg).1)] } } := by
  have hloop := h.loop x hx
  have hun : x.Unserved := .inr (by
    rintro hnil
    rw [hnil] at harg
    cases harg)
  obtain ⟨hheld, hsince, hlease⟩ := (h.leased x hx).held hun
  have hp := hloop.requests arg (List.mem_of_getElem? harg)
  have hres := Pubd.getchunk_fst hheld hsince hlease
    (by rw [hp.hash, hp.opts, hloop.dathash, hloop.key]) hp.pos (hloop.datasize ▸ hp.le)
  have hinv := h.getchunk arg
  refine ⟨hinv.good, fun y hy => ?_, fun y hy => ?_⟩
  · cases hy
    rw [hres]
    exact hloop.serve harg
  · cases hy
    exact (hinv.leased x hx).mono rfl rfl rfl rfl (fun _ => hun) rfl

omit [DecidableEq H] in
theorem Inv.ours (h : s.Inv sha1 jail2real parse xdr2str ws) (hx : s.transfer = some x)
    {y : ChunkTransfer H Z} (hloop : Loop sha1 xdr2str ws y) (hfile : y.file = x.file)
    (hsince : y.since = x.since) (hopts : y.opts = x.opts) (hscan : y.scan = x.scan)
    (hun : y.Unserved → x.Unserved) :
    Inv sha1 jail2real parse xdr2str ws { s with transfer := some y } := by
  refine ⟨h.good, fun z hz => ?_, fun z hz => ?_⟩
  · cases hz
    exact hloop
  · cases hz
    exact (h.leased x hx).mono hfile hsince hopts hscan hun rfl

omit [DecidableEq H] in
theorem answer_frame (x : ChunkTransfer H Z) (arg : GetchunkArg H) (res : GetchunkRes) :
    ∃ buf b, x.answer arg res = { x with buf := buf, ready := x.ready ++ [b] } := by
  unfold ChunkTransfer.answer
  split
  · exact ⟨x.buf, false, rfl⟩
  · split
    · exact ⟨x.buf, false, rfl⟩
    · exact ⟨_, true, rfl⟩

variable (sha1 str2xdr) in
theorem finish_frame (x : ChunkTransfer H Z) :
    ∃ st out, x.finish sha1 str2xdr = { x with status := some st, out := out } := by
  unfold ChunkTransfer.finish
  split
  · split
    · exact ⟨_, _, rfl⟩
    · split <;> exact ⟨_, _, rfl⟩
  · exact ⟨_, _, rfl⟩

theorem Inv.step {e : Event H} (h : s.Inv sha1 jail2real parse xdr2str ws)
    (hsha : Function.Injective sha1)
    (hxdr : ∀ file : XFile H Z, str2xdr (xdr2str file) = some file) (hmax : 0 < maxsz)
    (hcalm : s.Calm sha1 jail2real parse xdr2str e)
    (hs : s.step sha1 jail2real parse xdr2str str2xdr maxsz ws e = some t) :
    t.Inv sha1 jail2real parse xdr2str ws := by
  cases e with
  | getfile arg =>
    cases hs
    exact h.getfile hsha hcalm
  | getchunk arg =>
    cases hs
    exact h.getchunk arg
  | modify rfn content regular =>
    refine h.cache 0 hs (fun srv hsrv => ?_) (.inl rfl)
    cases hsrv
    rfl
  | delete rfn =>
    refine h.cache 0 hs (fun srv hsrv => ?_) (.inl rfl)
    cases hsrv
    rfl
  | advance secs =>
    refine h.cache secs hs (fun srv hsrv => ?_) (.inr hcalm)
    cases hsrv
    rfl
  | refresh =>
    rw [ChunkNet.step] at hs
    split at hs
    · refine h.cache 0 hs (fun srv hsrv => ?_) (.inl rfl)
      obtain ⟨c, hc, hd⟩ := Option.bind_eq_some_iff.mp hsrv
      have hnow := traverse_now hc
      cases hd
      exact hnow
    · cases hs
  | start fn opts =>
    rw [ChunkNet.step] at hs
    split at hs
    · next hnone => exact h.start (Option.isNone_iff_eq_none.mp hnone) hcalm hs
    · cases hs
  | send =>
    obtain ⟨x, hx, hs⟩ := Option.bind_eq_some_iff.mp hs
    split at hs
    · next hcond =>
      cases hs
      refine h.ours hx ((h.loop x hx).send hmax hcond.1 hcond.2.2) rfl rfl rfl rfl fun _ => ?_
      exact Loop.unserved_send hcond.2.2
    · cases hs
  | serve n =>
    obtain ⟨x, hx, hs⟩ := Option.bind_eq_some_iff.mp hs
    obtain ⟨arg, harg, rfl⟩ := Option.map_eq_some_iff.mp hs
    exact h.serve hx harg
  | reply n =>
    obtain ⟨x, hx, hs⟩ := Option.bind_eq_some_iff.mp hs
    obtain ⟨⟨arg, res⟩, hr, rfl⟩ := Option.map_eq_some_iff.mp hs
    have hloop := (h.loop x hx).reply hr
    obtain ⟨buf, b, heq⟩ := answer_frame { x with replies := x.replies.eraseIdx n } arg res
    rw [heq] at hloop
    dsimp only
    rw [heq]
    exact h.ours hx hloop rfl rfl rfl rfl id
  | recv =>
    obtain ⟨x, hx, hs⟩ := Option.bind_eq_some_iff.mp hs
    split at hs
    · cases hs
    · next nok ready hready =>
      split at hs
      · cases hs
        exact h.ours hx ((h.loop x hx).recv hready) rfl rfl rfl rfl id
      · cases hs
  | finish =>
    obtain ⟨x, hx, hs⟩ := Option.bind_eq_some_iff.mp hs
    split at hs
    · next hcond =>
      cases hs
      have hloop := (h.loop x hx).finish hxdr (Bool.not_eq_true _ ▸ hcond.2)
      obtain ⟨st, out, heq⟩ := finish_frame sha1 str2xdr x
      rw [heq] at hloop ⊢
      exact h.ours hx hloop rfl rfl rfl rfl id
    · cases hs

theorem Loop.live (h : Loop sha1 xdr2str ws x) (hws : 0 < ws) (hx : s.transfer = some x)
    (hstatus : x.status = none) : ∃ e t, e.ours = true ∧
      s.step sha1 jail2real parse xdr2str str2xdr maxsz ws e = some t := by
  by_cases hmore : x.more = true
  · by_cases hsends : x.sends ws = true
    · refine ⟨.send, { s with transfer := some (x.send maxsz) }, rfl, ?_⟩
      rw [ChunkNet.step, hx, Option.bind_some, if_pos ⟨hstatus, hmore, hsends⟩]
    · have hlt : x.nrecv < x.nsent := by
        rw [ChunkTransfer.more, h.ok, Bool.and_true, Bool.or_eq_true, decide_eq_true_eq,
          decide_eq_true_eq] at hmore
        rw [ChunkTransfer.sends, Bool.and_eq_true, decide_eq_true_eq, decide_eq_true_eq] at hsends
        omega
      have hsent := h.sent
      cases hreq : x.requests with
      | cons arg requests =>
        obtain ⟨t, ht⟩ : ∃ t, s.step sha1 jail2real parse xdr2str str2xdr maxsz ws (.serve 0) =
            some t := by
          rw [ChunkNet.step, hx, Option.bind_some, hreq]
          exact ⟨_, rfl⟩
        exact ⟨.serve 0, t, rfl, ht⟩
      | nil =>
        cases hrep : x.replies with
        | cons r replies =>
          obtain ⟨t, ht⟩ : ∃ t, s.step sha1 jail2real parse xdr2str str2xdr maxsz ws (.reply 0) =
              some t := by
            rw [ChunkNet.step, hx, Option.bind_some, hrep]
            exact ⟨_, rfl⟩
          exact ⟨.reply 0, t, rfl, ht⟩
        | nil =>
          cases hready : x.ready with
          | cons nok ready =>
            refine ⟨.recv, { s with transfer := some (x.recv nok ready) }, rfl, ?_⟩
            rw [ChunkNet.step, hx, Option.bind_some, hready]
            dsimp only
            rw [if_pos ⟨hstatus, hmore, hsends⟩]
          | nil =>
            rw [hreq, hrep, hready] at hsent
            exact absurd hsent (by simp only [List.length_nil]; omega)
  · refine ⟨.finish, { s with transfer := some (x.finish sha1 str2xdr) }, rfl, ?_⟩
    rw [ChunkNet.step, hx, Option.bind_some, if_pos ⟨hstatus, hmore⟩]

end Invariant

section Runs

def getStr : Str → Option (Str × Str)
  | 0 :: s => some ([], s)
  | 1 :: b :: s => (getStr s).map fun (t, s) => (b :: t, s)
  | _ => none

end Runs

end ChunkNet

end Okws
