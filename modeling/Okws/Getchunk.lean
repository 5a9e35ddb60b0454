import Okws.SrvCache

/-! How `pubd` gives out files: one that is too long is held, and sent chunk by chunk to those who
ask for it by the hash of its content. -/

universe u v

namespace Okws

@[simp] theorem opMask_opMask (o : UInt32) : opMask (opMask o) = opMask o := by
  rw [opMask, opMask, UInt32.and_assoc, UInt32.and_self]

/-- `xpub3_file_t`.  The `ctime` is not set. -/
structure XFile (H : Type u) (Z : Type v) where
  jailedFilename : Str
  realFilename : Str
  hash : H
  root : Z
  opts : UInt32

/-- `file_t`, with its metadata and `_xdr_opaque`. -/
structure PubdFile (H : Type u) (Z : Type v) where
  jfn : Str
  rfn : Str
  hash : H
  ctime : Nat
  dataRoot : Z
  opts : UInt32
  xdrOpaque : Option Str := none

structure SrvCacheKey (H : Type u) where
  filehash : H
  opts : UInt32
  deriving DecidableEq

def srvCacheKey {H : Type u} (h : H) (o : UInt32) : SrvCacheKey H := ⟨h, opMask o⟩

instance (H : Type u) (Z : Type v) : Keyfn (PubdFile H Z) (SrvCacheKey H) :=
  ⟨fun f => srvCacheKey f.hash f.opts⟩

inductive XpubStatus
  | ok | noent | nochange | parse
  | err (error : String)
  | corruption (error : String)
  deriving DecidableEq

/-- `xpub3_file_freshcheck_t`. -/
inductive Freshcheck (H : Type u)
  | none
  | ctime (t : Nat)
  | hash (h : H)

def Freshcheck.unchanged {H : Type u} [DecidableEq H] (hsh : H) (ctime : Nat) :
    Freshcheck H → Bool
  | .none => false
  | .ctime t => ctime < t
  | .hash h => hsh = h

structure GetfileArg (H : Type u) where
  filename : Str
  options : UInt32
  fresh : Freshcheck H
  maxsz : Nat

structure ChunksHdr (H : Type u) where
  xdrhash : H
  leasetime : Nat
  datasize : Nat
  dathash : H

inductive XGetfileRes (H : Type u) (Z : Type v)
  | failed (s : XpubStatus)
  | whole (x : XFile H Z)
  | chunked (hdr : ChunksHdr H)

structure GetchunkArg (H : Type u) where
  hash : H
  opts : UInt32
  offset : Nat
  size : Nat

inductive GetchunkRes
  | chunk (offset : Nat) (data : Str)
  | failed (s : XpubStatus)

namespace PubdFile

variable {H : Type u} {Z : Type v} (xdr2str : XFile H Z → Str) (f : PubdFile H Z)

def toXdr : XFile H Z := ⟨f.jfn, f.rfn, f.hash, f.dataRoot, f.opts⟩

def xdr : Str := xdr2str f.toXdr

def initXdrOpaque : PubdFile H Z := match f.xdrOpaque with
  | none => { f with xdrOpaque := some (f.xdr xdr2str) }
  | some _ => f

def getChunk (offset capacity : Nat) : Option Str := f.xdrOpaque.bind fun s =>
  if s.length ≤ offset then none else some ((s.drop offset).take capacity)

theorem key_initXdrOpaque : key (f.initXdrOpaque xdr2str) = key f := by
  unfold initXdrOpaque
  split <;> rfl

@[simp] theorem toXdr_initXdrOpaque : (f.initXdrOpaque xdr2str).toXdr = f.toXdr := by
  unfold initXdrOpaque
  split <;> rfl

/-- A file that answers for `g`. -/
structure Same (g f : PubdFile H Z) : Prop where
  key : Okws.key f = Okws.key g
  xdrOpaque : f.xdrOpaque = some (g.xdr xdr2str)

variable {xdr2str f}

theorem initXdrOpaque_eq (h : ∀ x, f.xdrOpaque = some x → x = f.xdr xdr2str) :
    (f.initXdrOpaque xdr2str).xdrOpaque = some (f.xdr xdr2str) := by
  unfold initXdrOpaque
  split
  · rfl
  · next x hx => rw [hx, h x hx]

theorem Same.initXdrOpaque {g : PubdFile H Z} (h : Same xdr2str g f) :
    Same xdr2str g (f.initXdrOpaque xdr2str) := by
  unfold PubdFile.initXdrOpaque
  rw [h.xdrOpaque]
  exact h

theorem Same.getChunk {g : PubdFile H Z} (h : Same xdr2str g f) {offset size : Nat}
    (hsize : 0 < size) (hend : offset + size ≤ (g.xdr xdr2str).length) :
    f.getChunk offset size = some (((g.xdr xdr2str).drop offset).take size) := by
  unfold PubdFile.getChunk
  rw [h.xdrOpaque, Option.bind_some, if_neg (by omega)]

end PubdFile

/-- What the scanner keeps from one file to the next: how deep it is in braces, brackets and tags,
and the text of a regular expression that did not end.  `scanner_reset` is never called. -/
structure PubScan where
  yyDBrace : Int := 0
  yyDBracket : Int := 0
  yyP3Depth : Int := 0
  yyP3RegexBuf : Str := []
  deriving DecidableEq

/-- The parser on a text in which nothing is special to it. -/
def textParse (scan : PubScan) (_ content : Str) (_ : UInt32) : Option Str × PubScan :=
  (some content, scan)

/-- `pubd` with the table of the files: `_getfile_cache` of `srv_cache_t`, or `_chunk_cache` of
`chunkholder_t`.  Nothing is ever put into `_badfile_cache`. -/
structure Pubd (H : Type u) (Z : Type v) where
  useCache : Bool
  srv : SrvCache H
  held : Timehash (PubdFile H Z)
  scan : PubScan := {}

namespace Pubd

variable {H : Type u} {Z : Type v} [DecidableEq H] (sha1 : Str → H) (jail2real : Str → Str)
  (parse : PubScan → Str → Str → UInt32 → Option Z × PubScan) (xdr2str : XFile H Z → Str)
  (s : Pubd H Z)

/-- The hash and the time of a file, from `lookup` or the file. -/
def findHash (jfn : Str) : Option (H × Nat) × Pubd H Z :=
  let rfn := jail2real jfn
  if s.useCache then match s.srv.lookup jfn with
    | (some o, srv) => (o, { s with srv := srv })
    | (none, srv) =>
      let hsh := srv.file2hash sha1 rfn
      (hsh.map fun h => (h, srv.now), { s with
        srv := srv.cacheLookup jfn rfn hsh srv.now
          ((srv.files rfn).elim 0 fun f => f.content.length) })
  else ((s.srv.file2hash sha1 rfn).map fun h => (h, s.srv.now), s)

/-- `pub_parser_t::parse`, with the metadata of the file, and how it leaves the scanner. -/
def parseFile (jfn : Str) (hsh : H) (ctime : Nat) (o : UInt32) : Option (PubdFile H Z) × PubScan :=
  let rfn := jail2real jfn
  match s.srv.files rfn with
  | none => (none, s.scan)
  | some f =>
    let r := parse s.scan jfn f.content (opMask o)
    (r.1.map fun z =>
      { jfn := jfn, rfn := rfn, hash := hsh, ctime := ctime, dataRoot := z, opts := opMask o }, r.2)

/-- `file_lookup_t::getfile`. -/
def lookupFile (h : H) (o : UInt32) : Option (PubdFile H Z) × Pubd H Z :=
  if s.useCache then
    let (f, held) := s.held.get s.srv.now (srvCacheKey h o)
    (f, { s with held := held })
  else (none, s)

def cacheGetfile (f : PubdFile H Z) : Pubd H Z :=
  if s.useCache then { s with held := s.held.insert s.srv.now f } else s

/-- `local_publisher_t::getfile`. -/
def publish (jfn : Str) (fresh : Freshcheck H) (o : UInt32) :
    Except XpubStatus (PubdFile H Z) × Pubd H Z :=
  match s.findHash sha1 jail2real jfn with
  | (none, s) => (.error .noent, s)
  | (some (hsh, ctime), s) =>
    if fresh.unchanged hsh ctime then (.error .nochange, s)
    else match s.lookupFile hsh o with
      | (some f, s) => (.ok f, s)
      | (none, s) =>
        let r := s.parseFile jail2real parse jfn hsh ctime o
        let s := { s with scan := r.2 }
        match r.1 with
        | some f => (.ok f, s.cacheGetfile f)
        | none => (.error .parse, s)

/-- `init_xdr_opaque`.  A file of the cache is that of the table. -/
def initXdrOpaque (f : PubdFile H Z) : Pubd H Z :=
  if s.useCache then { s with
    held := s.held.modify (key f) (PubdFile.initXdrOpaque xdr2str)
      (PubdFile.key_initXdrOpaque xdr2str) }
  else s

def holdChunks (f : PubdFile H Z) : Nat × Pubd H Z :=
  (s.held.timeout, if s.useCache then s else { s with held := s.held.insert s.srv.now f })

/-- `slave_srv_t::getfile`.  The size is put into 32 bits. -/
def getfile (arg : GetfileArg H) : XGetfileRes H Z × Pubd H Z :=
  match s.publish sha1 jail2real parse arg.filename arg.fresh arg.options with
  | (.error st, s) => (.failed st, s)
  | (.ok f, s) =>
    let s := s.initXdrOpaque xdr2str f
    let f := f.initXdrOpaque xdr2str
    match f.xdrOpaque with
    -- the assertion
    | none => (.failed (.err ""), s)
    | some x =>
      if arg.maxsz < x.length then
        let (leasetime, s) := s.holdChunks f
        (.chunked ⟨sha1 x, leasetime, x.length % 2 ^ 32, f.hash⟩, s)
      else (.whole f.toXdr, s)

def getchunk (arg : GetchunkArg H) : GetchunkRes × Pubd H Z :=
  let (f, held) := s.held.get s.srv.now (srvCacheKey arg.hash arg.opts)
  let res := match f with
    | none => .failed .noent
    | some f => match f.getChunk arg.offset arg.size with
      | none => .failed (.err "Datasize overflow")
      | some data =>
        if data.length = arg.size then .chunk arg.offset data
        else .failed (.err "Datasize overflow")
  (res, { s with held := held })

section Lemmas

variable {sha1 : Str → H} {jail2real : Str → Str}
  {parse : PubScan → Str → Str → UInt32 → Option Z × PubScan}
  {xdr2str : XFile H Z → Str} {s : Pubd H Z}

theorem cacheLookup_frame (s : SrvCache H) (jfn rfn : Str) (hsh : Option H)
    (ctime sz : Nat) : (s.cacheLookup jfn rfn hsh ctime sz).now = s.now ∧
      (s.cacheLookup jfn rfn hsh ctime sz).files = s.files := by
  unfold SrvCache.cacheLookup
  dsimp only
  cases hsh with
  | none =>
    dsimp only
    split <;> exact ⟨rfl, rfl⟩
  | some hsh =>
    dsimp only
    split
    · split <;> exact ⟨rfl, rfl⟩
    · exact ⟨rfl, rfl⟩

omit [DecidableEq H] in
theorem lookup_frame (s : SrvCache H) (jfn : Str) :
    (s.lookup jfn).2.now = s.now ∧ (s.lookup jfn).2.files = s.files := by
  unfold SrvCache.lookup
  dsimp only
  split <;> exact ⟨rfl, rfl⟩

variable (sha1 jail2real) in
theorem findHash_frame (s : Pubd H Z) (jfn : Str) :
    ∃ o srv, s.findHash sha1 jail2real jfn = (o, { s with srv := srv }) ∧
      srv.now = s.srv.now ∧ srv.files = s.srv.files ∧ (s.useCache = false →
        o = (s.srv.file2hash sha1 (jail2real jfn)).map fun h => (h, s.srv.now)) := by
  obtain ⟨useCache, cache, held, scan⟩ := s
  cases useCache with
  | false => exact ⟨_, cache, rfl, rfl, rfl, fun _ => rfl⟩
  | true =>
    have hframe := lookup_frame cache jfn
    unfold findHash
    dsimp only
    cases hlookup : cache.lookup jfn with
    | mk o srv =>
      rw [hlookup] at hframe
      cases o with
      | some o => exact ⟨o, srv, rfl, hframe.1, hframe.2, nofun⟩
      | none =>
        have hcl := cacheLookup_frame srv jfn (jail2real jfn)
          (srv.file2hash sha1 (jail2real jfn)) srv.now
          ((srv.files (jail2real jfn)).elim 0 fun f => f.content.length)
        exact ⟨_, _, rfl, hcl.1.trans hframe.1, hcl.2.trans hframe.2, nofun⟩

variable (sha1 jail2real parse) in
/-- What `local_publisher_t::getfile` does with the table: without a cache nothing, and with one a
file comes in where there is none with its key. -/
theorem publish_cases (s : Pubd H Z) (jfn : Str) (fresh : Freshcheck H) (o : UInt32) :
    ∃ r srv held scan, s.publish sha1 jail2real parse jfn fresh o =
        (r, { s with srv := srv, held := held, scan := scan }) ∧
      srv.now = s.srv.now ∧ srv.files = s.srv.files ∧
      ((∃ st, r = .error st ∧ (held = s.held ∨ ∃ k, held = (s.held.get s.srv.now k).2)) ∨
      s.useCache = false ∧ held = s.held ∧ (∃ f hsh, r = .ok f ∧
        s.srv.file2hash sha1 (jail2real jfn) = some hsh ∧
        (s.parseFile jail2real parse jfn hsh s.srv.now o).1 = some f) ∨
      s.useCache = true ∧ ∃ f hsh, r = .ok f ∧
        ((s.held.get s.srv.now (srvCacheKey hsh o)).1 = some f ∧
          held = (s.held.get s.srv.now (srvCacheKey hsh o)).2 ∨
        (s.held.get s.srv.now (srvCacheKey hsh o)).1 = none ∧
          (∃ ctime, (s.parseFile jail2real parse jfn hsh ctime o).1 = some f) ∧
          held = (s.held.get s.srv.now (srvCacheKey hsh o)).2.insert s.srv.now f)) := by
  obtain ⟨found, srv, hfind, hnow, hfiles, hhash⟩ :=
    findHash_frame sha1 jail2real s jfn
  unfold publish
  rw [hfind]
  cases found with
  | none => exact ⟨_, srv, s.held, s.scan, rfl, hnow, hfiles, .inl ⟨_, rfl, .inl rfl⟩⟩
  | some p =>
    obtain ⟨hsh, ctime⟩ := p
    dsimp only
    split
    · exact ⟨_, srv, s.held, s.scan, rfl, hnow, hfiles, .inl ⟨_, rfl, .inl rfl⟩⟩
    · have hparse (held : Timehash (PubdFile H Z)) (ctime : Nat) :
          Pubd.parseFile jail2real parse ⟨s.useCache, srv, held, s.scan⟩ jfn hsh ctime o =
            s.parseFile jail2real parse jfn hsh ctime o := by
        unfold parseFile
        rw [hfiles]
      obtain ⟨useCache, cache, held, scan⟩ := s
      dsimp only at *
      cases useCache with
      | false =>
        have hlookup : lookupFile ⟨false, srv, held, scan⟩ hsh o =
            (none, ⟨false, srv, held, scan⟩) := rfl
        rw [hlookup]
        dsimp only
        rw [hparse]
        obtain ⟨h, hh, heq⟩ := Option.map_eq_some_iff.mp (hhash rfl).symm
        cases heq
        cases hf : (Pubd.parseFile jail2real parse ⟨false, cache, held, scan⟩ jfn hsh
          cache.now o).1 with
        | none => exact ⟨_, srv, held, _, rfl, hnow, hfiles, .inl ⟨_, rfl, .inl rfl⟩⟩
        | some f =>
          exact ⟨_, srv, held, _, rfl, hnow, hfiles, .inr (.inl ⟨rfl, rfl, f, hsh, rfl, hh, hf⟩)⟩
      | true =>
        have hlookup : lookupFile ⟨true, srv, held, scan⟩ hsh o =
            ((held.get srv.now (srvCacheKey hsh o)).1,
              ⟨true, srv, (held.get srv.now (srvCacheKey hsh o)).2, scan⟩) := rfl
        rw [hlookup, hnow]
        cases hget : (held.get cache.now (srvCacheKey hsh o)).1 with
        | some f =>
          exact ⟨_, srv, _, scan, rfl, hnow, hfiles,
            .inr (.inr ⟨rfl, f, hsh, rfl, .inl ⟨hget, rfl⟩⟩)⟩
        | none =>
          dsimp only
          rw [hparse]
          cases hf : (Pubd.parseFile jail2real parse ⟨true, cache, held, scan⟩ jfn hsh
            ctime o).1 with
          | none => exact ⟨_, srv, _, _, rfl, hnow, hfiles, .inl ⟨_, rfl, .inr ⟨_, rfl⟩⟩⟩
          | some f =>
            have hcache (scan : PubScan) :
                cacheGetfile ⟨true, srv, (held.get cache.now (srvCacheKey hsh o)).2, scan⟩ f =
                  ⟨true, srv, (held.get cache.now (srvCacheKey hsh o)).2.insert srv.now f,
                    scan⟩ := rfl
            dsimp only
            rw [hcache, hnow]
            exact ⟨_, srv, _, _, rfl, hnow, hfiles,
              .inr (.inr ⟨rfl, f, hsh, rfl, .inr ⟨hget, ⟨ctime, hf⟩, rfl⟩⟩)⟩

omit [DecidableEq H] in
theorem parseFile_fst {jfn : Str} {hsh : H} {ctime : Nat} {o : UInt32} {f : PubdFile H Z}
    (h : (s.parseFile jail2real parse jfn hsh ctime o).1 = some f) : ∃ file z,
      s.srv.files (jail2real jfn) = some file ∧
      (parse s.scan jfn file.content (opMask o)).1 = some z ∧
      { jfn := jfn, rfn := jail2real jfn, hash := hsh, ctime := ctime, dataRoot := z,
        opts := opMask o } = f := by
  unfold parseFile at h
  dsimp only at h
  cases hfile : s.srv.files (jail2real jfn) with
  | none =>
    rw [hfile] at h
    cases h
  | some file =>
    rw [hfile] at h
    obtain ⟨z, hz, hf⟩ := Option.map_eq_some_iff.mp h
    exact ⟨file, z, rfl, hz, hf⟩

variable (xdr2str) in
/-- The files that are held are those that were sent. -/
structure Good (s : Pubd H Z) : Prop where
  rejuvenates : s.held.rejuvenates = true
  xdrOpaque : ∀ f ∈ s.held.vals, f.xdrOpaque = some (f.xdr xdr2str)

theorem Good.publish (h : s.Good xdr2str) {jfn : Str} {fresh : Freshcheck H} {o : UInt32}
    {r : Except XpubStatus (PubdFile H Z)} {t : Pubd H Z}
    (hp : s.publish sha1 jail2real parse jfn fresh o = (r, t)) :
    t.held.rejuvenates = true ∧ t.held.timeout = s.held.timeout ∧
      (∀ v ∈ t.held.vals, v.xdrOpaque = some (v.xdr xdr2str) ∨ s.useCache = true ∧ r = .ok v) ∧
      ∀ f, r = .ok f → ∀ x, f.xdrOpaque = some x → x = f.xdr xdr2str := by
  have hnew {f : PubdFile H Z} {hsh : H} {ctime : Nat}
      (hf : (s.parseFile jail2real parse jfn hsh ctime o).1 = some f) : f.xdrOpaque = none := by
    obtain ⟨file, z, -, -, rfl⟩ := parseFile_fst hf
    rfl
  obtain ⟨r', srv, held, scan, heq, -, -, hcases⟩ := publish_cases sha1 jail2real parse s jfn fresh o
  cases hp.symm.trans heq
  obtain ⟨st, rfl, hheld⟩ | ⟨-, rfl, f, hsh, rfl, -, hf⟩ | ⟨hcache, f, hsh, rfl, hget⟩ := hcases
  · obtain rfl | ⟨k, rfl⟩ := hheld
    · exact ⟨h.rejuvenates, rfl, fun v hv => .inl (h.xdrOpaque v hv), nofun⟩
    · exact ⟨Timehash.get_rejuvenates.trans h.rejuvenates, Timehash.get_timeout,
        fun v hv => .inl (h.xdrOpaque v (Timehash.vals_get_subset hv)), nofun⟩
  · refine ⟨h.rejuvenates, rfl, fun v hv => .inl (h.xdrOpaque v hv), ?_⟩
    rintro g hg x hx
    cases hg
    rw [hnew hf] at hx
    cases hx
  · obtain ⟨hget, rfl⟩ | ⟨hget, ⟨ctime, hf⟩, rfl⟩ := hget
    · refine ⟨Timehash.get_rejuvenates.trans h.rejuvenates, Timehash.get_timeout,
        fun v hv => .inl (h.xdrOpaque v (Timehash.vals_get_subset hv)), ?_⟩
      rintro g hg x hx
      cases hg
      have hmem := (Timehash.find_eq_some.mp hget).1
      rw [h.xdrOpaque f (Timehash.vals_get_subset hmem)] at hx
      exact (Option.some.inj hx).symm
    · refine ⟨Timehash.insert_rejuvenates.trans (Timehash.get_rejuvenates.trans h.rejuvenates),
        Timehash.insert_timeout.trans Timehash.get_timeout, fun v hv => ?_, ?_⟩
      · obtain rfl | hv := Timehash.vals_insert_subset hv
        · exact .inr ⟨hcache, rfl⟩
        · exact .inl (h.xdrOpaque v (Timehash.vals_get_subset hv))
      · rintro g hg x hx
        cases hg
        rw [hnew hf] at hx
        cases hx

theorem initXdrOpaque_of_holder (h : s.useCache = false) (f : PubdFile H Z) :
    s.initXdrOpaque xdr2str f = s := by
  rw [Pubd.initXdrOpaque, h, if_neg Bool.false_ne_true]

theorem initXdrOpaque_of_cache (h : s.useCache = true) (f : PubdFile H Z) :
    s.initXdrOpaque xdr2str f = { s with
      held := s.held.modify (key f) (PubdFile.initXdrOpaque xdr2str)
        (PubdFile.key_initXdrOpaque xdr2str) } := if_pos h

theorem holdChunks_of_holder (h : s.useCache = false) (f : PubdFile H Z) :
    (s.holdChunks f).2 = { s with held := s.held.insert s.srv.now f } := by
  rw [holdChunks, h]
  rfl

theorem holdChunks_of_cache (h : s.useCache = true) (f : PubdFile H Z) :
    (s.holdChunks f).2 = s := if_pos h

theorem getfile_ok {arg : GetfileArg H} {f : PubdFile H Z} {t : Pubd H Z}
    (hp : s.publish sha1 jail2real parse arg.filename arg.fresh arg.options = (.ok f, t))
    (hf : ∀ x, f.xdrOpaque = some x → x = f.xdr xdr2str) :
    s.getfile sha1 jail2real parse xdr2str arg =
      if arg.maxsz < (f.xdr xdr2str).length then
        (.chunked ⟨sha1 (f.xdr xdr2str), (t.initXdrOpaque xdr2str f).held.timeout,
          (f.xdr xdr2str).length % 2 ^ 32, f.hash⟩,
          ((t.initXdrOpaque xdr2str f).holdChunks (f.initXdrOpaque xdr2str)).2)
      else (.whole f.toXdr, t.initXdrOpaque xdr2str f) := by
  have hhash : (f.initXdrOpaque xdr2str).hash = f.hash := by
    unfold PubdFile.initXdrOpaque
    split <;> rfl
  unfold getfile
  rw [hp]
  dsimp only
  rw [PubdFile.initXdrOpaque_eq hf]
  dsimp only
  rw [hhash, PubdFile.toXdr_initXdrOpaque]
  rfl

theorem getfile_error {arg : GetfileArg H} {st : XpubStatus} {t : Pubd H Z}
    (hp : s.publish sha1 jail2real parse arg.filename arg.fresh arg.options = (.error st, t)) :
    s.getfile sha1 jail2real parse xdr2str arg = (.failed st, t) := by
  unfold getfile
  rw [hp]

theorem Good.initXdrOpaque {f : PubdFile H Z} (hr : s.held.rejuvenates = true)
    (hvals : ∀ v ∈ s.held.vals, v.xdrOpaque = some (v.xdr xdr2str) ∨ s.useCache = true ∧ v = f)
    (hf : ∀ x, f.xdrOpaque = some x → x = f.xdr xdr2str) :
    (s.initXdrOpaque xdr2str f).Good xdr2str := by
  have hinit (v : PubdFile H Z) (hv : ∀ x, v.xdrOpaque = some x → x = v.xdr xdr2str) :
      (v.initXdrOpaque xdr2str).xdrOpaque = some ((v.initXdrOpaque xdr2str).xdr xdr2str) := by
    rw [PubdFile.initXdrOpaque_eq hv, PubdFile.xdr, PubdFile.xdr, PubdFile.toXdr_initXdrOpaque]
  have hhonest (v : PubdFile H Z) (hv : v ∈ s.held.vals) :
      ∀ x, v.xdrOpaque = some x → x = v.xdr xdr2str := by
    obtain hv | ⟨-, rfl⟩ := hvals v hv
    · intro x hx
      rw [hv] at hx
      exact (Option.some.inj hx).symm
    · exact hf
  unfold Pubd.initXdrOpaque
  split
  · refine ⟨hr, fun v hv => ?_⟩
    dsimp only at hv
    obtain ⟨w, hw, rfl⟩ := Timehash.mem_vals_modify.mp hv
    split
    · exact hinit w (hhonest w hw)
    · next hne =>
      refine (hvals w hw).resolve_right fun hw' => hne ?_
      rw [hw'.2]
  · next hcache => exact ⟨hr, fun v hv => (hvals v hv).resolve_right fun hv' => hcache hv'.1⟩

variable (sha1 jail2real parse) in
theorem Good.getfile (h : s.Good xdr2str) (arg : GetfileArg H) :
    (s.getfile sha1 jail2real parse xdr2str arg).2.Good xdr2str := by
  obtain ⟨r, srv, held, scan, hp, -⟩ :=
    publish_cases sha1 jail2real parse s arg.filename arg.fresh arg.options
  obtain ⟨hr, -, hvals, hhonest⟩ := h.publish hp
  cases r with
  | error st =>
    rw [getfile_error hp]
    exact ⟨hr, fun v hv => (hvals v hv).resolve_right fun hv' => nomatch hv'.2⟩
  | ok f =>
    have hf := hhonest f rfl
    have hgood : (Pubd.initXdrOpaque xdr2str ⟨s.useCache, srv, held, scan⟩ f).Good xdr2str := by
      refine Good.initXdrOpaque hr (fun v hv => ?_) hf
      exact (hvals v hv).imp_right fun hv' => ⟨hv'.1, (Except.ok.inj hv'.2).symm⟩
    rw [getfile_ok hp hf]
    split
    · unfold holdChunks
      dsimp only
      split
      · exact hgood
      · refine ⟨Timehash.insert_rejuvenates.trans hgood.rejuvenates, fun v hv => ?_⟩
        obtain rfl | hv := Timehash.vals_insert_subset hv
        · rw [PubdFile.initXdrOpaque_eq hf, PubdFile.xdr, PubdFile.xdr,
            PubdFile.toXdr_initXdrOpaque]
        · exact hgood.xdrOpaque v hv
    · exact hgood

omit [DecidableEq H] in
theorem parseFile_eq_some {jfn : Str} {hsh : H} {ctime : Nat} {o : UInt32} {f : PubdFile H Z}
    (h : (s.parseFile jail2real parse jfn hsh ctime o).1 = some f) :
    key f = srvCacheKey hsh o ∧ f.hash = hsh ∧ f.jfn = jfn ∧ ∃ file z,
      s.srv.files (jail2real jfn) = some file ∧
      (parse s.scan jfn file.content (opMask o)).1 = some z ∧
      f.toXdr = ⟨jfn, jail2real jfn, hsh, z, opMask o⟩ := by
  obtain ⟨file, z, hfile, hz, rfl⟩ := parseFile_fst h
  refine ⟨?_, rfl, rfl, file, z, hfile, hz, rfl⟩
  change SrvCacheKey.mk hsh (opMask (opMask o)) = ⟨hsh, opMask o⟩
  rw [opMask_opMask]

variable (sha1 jail2real parse) in
theorem getfile_frame (h : s.Good xdr2str) (arg : GetfileArg H) :
    (s.getfile sha1 jail2real parse xdr2str arg).2.useCache = s.useCache ∧
      (s.getfile sha1 jail2real parse xdr2str arg).2.srv.now = s.srv.now ∧
      (s.getfile sha1 jail2real parse xdr2str arg).2.srv.files = s.srv.files ∧
      (s.getfile sha1 jail2real parse xdr2str arg).2.held.timeout = s.held.timeout := by
  obtain ⟨r, srv, held, scan, hp, hnow, hfiles, -⟩ :=
    publish_cases sha1 jail2real parse s arg.filename arg.fresh arg.options
  obtain ⟨-, htimeout, -, hhonest⟩ := h.publish hp
  cases r with
  | error st =>
    rw [getfile_error hp]
    exact ⟨rfl, hnow, hfiles, htimeout⟩
  | ok f =>
    rw [getfile_ok hp (hhonest f rfl)]
    unfold holdChunks Pubd.initXdrOpaque
    cases s.useCache with
    | false =>
      split
      · exact ⟨rfl, hnow, hfiles, Timehash.insert_timeout.trans htimeout⟩
      · exact ⟨rfl, hnow, hfiles, htimeout⟩
    | true => split <;> exact ⟨rfl, hnow, hfiles, htimeout⟩

theorem Good.getfile_held (h : s.Good xdr2str) {g : PubdFile H Z} {τ : Nat} (arg : GetfileArg H)
    (hheld : s.held.Held (PubdFile.Same xdr2str g) τ) (hnow : τ ≤ s.srv.now)
    (hτ : s.held.timeout = 0 ∨ s.srv.now ≤ τ + s.held.timeout)
    (hother : s.useCache = false → ∀ hsh f,
      s.srv.file2hash sha1 (jail2real arg.filename) = some hsh →
      (s.parseFile jail2real parse arg.filename hsh s.srv.now arg.options).1 = some f →
      arg.maxsz < (f.xdr xdr2str).length → key f = key g → f.xdr xdr2str = g.xdr xdr2str) :
    (s.getfile sha1 jail2real parse xdr2str arg).2.held.Held (PubdFile.Same xdr2str g) τ := by
  obtain ⟨r, srv, held, scan, hp, hsrv, -, hcases⟩ :=
    publish_cases sha1 jail2real parse s arg.filename arg.fresh arg.options
  obtain ⟨-, -, -, hhonest⟩ := h.publish hp
  obtain ⟨st, rfl, hget⟩ | ⟨hcache, rfl, f, hsh, rfl, hhash, hf⟩ | ⟨hcache, f, hsh, rfl, hget⟩ :=
    hcases
  · rw [getfile_error hp]
    obtain rfl | ⟨k, rfl⟩ := hget
    · exact hheld
    · exact hheld.get hτ hnow
  · rw [getfile_ok hp (hhonest f rfl),
      initXdrOpaque_of_holder (s := ⟨s.useCache, srv, s.held, scan⟩) hcache]
    split
    · next hlen =>
      rw [holdChunks_of_holder (s := ⟨s.useCache, srv, s.held, scan⟩) hcache]
      dsimp only
      rw [hsrv]
      refine hheld.insert hτ hnow ?_
      by_cases hkey : key f = key g
      · refine .inl ⟨(f.key_initXdrOpaque xdr2str).trans hkey, ?_⟩
        rw [PubdFile.initXdrOpaque_eq (hhonest f rfl), hother hcache hsh f hhash hf hlen hkey]
      · refine .inr fun w hw hne => hkey ?_
        rw [← f.key_initXdrOpaque xdr2str, ← hne, hw.key]
    · exact hheld
  · have hin : held.Held (PubdFile.Same xdr2str g) τ := by
      obtain ⟨-, rfl⟩ | ⟨hnone, ⟨ctime, hf⟩, rfl⟩ := hget
      · exact hheld.get hτ hnow
      · have hkey : srvCacheKey hsh arg.options ≠ key g := fun hkey => by
          rw [hkey] at hnone
          obtain ⟨v, hv, -⟩ := hheld.get_fst hτ hnow fun w hw => hw.key
          rw [hnone] at hv
          cases hv
        refine (hheld.get hτ hnow).insert (by rwa [Timehash.get_timeout]) hnow
          (.inr fun w hw hne => hkey ?_)
        rw [← (parseFile_eq_some hf).1, ← hne, hw.key]
    have hmod := hin.modify (Q := PubdFile.Same xdr2str g) (k := key f)
      (PubdFile.key_initXdrOpaque xdr2str) fun v hv => by
        split
        · exact hv.initXdrOpaque
        · exact hv
    rw [getfile_ok hp (hhonest f rfl),
      initXdrOpaque_of_cache (s := ⟨s.useCache, srv, held, scan⟩) hcache]
    split
    · rw [holdChunks_of_cache (s := ⟨s.useCache, srv, _, scan⟩) hcache]
      exact hmod
    · exact hmod

theorem Good.getfile_chunked (h : s.Good xdr2str) {arg : GetfileArg H} {hdr : ChunksHdr H}
    {t : Pubd H Z} (hres : s.getfile sha1 jail2real parse xdr2str arg = (.chunked hdr, t)) :
    ∃ g : PubdFile H Z,
      (s.publish sha1 jail2real parse arg.filename arg.fresh arg.options).1 = .ok g ∧
      hdr = ⟨sha1 (g.xdr xdr2str), s.held.timeout,
        (g.xdr xdr2str).length % 2 ^ 32, g.hash⟩ ∧
      key g = srvCacheKey g.hash arg.options ∧ t.held.Held (PubdFile.Same xdr2str g) s.srv.now ∧
      (s.useCache = false → s.srv.file2hash sha1 (jail2real arg.filename) = some g.hash ∧
        (s.parseFile jail2real parse arg.filename g.hash s.srv.now arg.options).1 = some g) := by
  obtain ⟨r, srv, held, scan, hp, hsrv, -, hcases⟩ :=
    publish_cases sha1 jail2real parse s arg.filename arg.fresh arg.options
  obtain ⟨-, htimeout, -, hhonest⟩ := h.publish hp
  obtain ⟨st, rfl, -⟩ | ⟨hcache, rfl, f, hsh, rfl, hhash, hf⟩ | ⟨hcache, f, hsh, rfl, hget⟩ :=
    hcases
  · rw [getfile_error hp] at hres
    cases hres
  · have hhonest := hhonest f rfl
    rw [getfile_ok hp hhonest,
      initXdrOpaque_of_holder (s := ⟨s.useCache, srv, s.held, scan⟩) hcache] at hres
    split at hres
    · rw [holdChunks_of_holder (s := ⟨s.useCache, srv, s.held, scan⟩) hcache] at hres
      cases hres
      obtain ⟨hkey, rfl, -⟩ := parseFile_eq_some hf
      refine ⟨f, congrArg Prod.fst hp, rfl, hkey, ?_, fun _ => ⟨hhash, hf⟩⟩
      dsimp only
      rw [← hsrv]
      exact Timehash.held_insert ⟨f.key_initXdrOpaque xdr2str, PubdFile.initXdrOpaque_eq hhonest⟩
    · cases hres
  · have hhonest := hhonest f rfl
    have hin : held.Held (· = f) s.srv.now ∧ key f = srvCacheKey hsh arg.options := by
      obtain ⟨hget, rfl⟩ | ⟨-, ⟨ctime, hf⟩, rfl⟩ := hget
      · exact ⟨Timehash.held_get h.rejuvenates hget, (Timehash.find_eq_some.mp hget).2⟩
      · exact ⟨Timehash.held_insert rfl, (parseFile_eq_some hf).1⟩
    rw [getfile_ok hp hhonest,
      initXdrOpaque_of_cache (s := ⟨s.useCache, srv, held, scan⟩) hcache] at hres
    split at hres
    · rw [holdChunks_of_cache (s := ⟨s.useCache, srv, _, scan⟩) hcache] at hres
      cases hres
      refine ⟨f, congrArg Prod.fst hp, ?_, ?_,
        ?_, fun hholder => absurd (hcache.symm.trans hholder) (by rintro ⟨⟩)⟩
      · exact congrArg (fun n => ChunksHdr.mk _ n _ _) htimeout
      · have hopts : opMask f.opts = opMask arg.options := congrArg SrvCacheKey.opts hin.2
        exact congrArg (SrvCacheKey.mk f.hash) hopts
      · refine hin.1.modify (PubdFile.key_initXdrOpaque xdr2str) fun v hv => ?_
        rw [hv, if_pos rfl]
        exact ⟨f.key_initXdrOpaque xdr2str, PubdFile.initXdrOpaque_eq hhonest⟩
    · cases hres

theorem Good.getchunk (h : s.Good xdr2str) (arg : GetchunkArg H) :
    (s.getchunk arg).2.Good xdr2str :=
  ⟨Timehash.get_rejuvenates.trans h.rejuvenates,
    fun f hf => h.xdrOpaque f (Timehash.vals_get_subset hf)⟩

theorem getchunk_fst {g : PubdFile H Z} {τ : Nat} {arg : GetchunkArg H}
    (hheld : s.held.Held (PubdFile.Same xdr2str g) τ) (hnow : τ ≤ s.srv.now)
    (hτ : s.held.timeout = 0 ∨ s.srv.now ≤ τ + s.held.timeout)
    (hkey : srvCacheKey arg.hash arg.opts = key g) (hsize : 0 < arg.size)
    (hend : arg.offset + arg.size ≤ (g.xdr xdr2str).length) :
    (s.getchunk arg).1 =
      .chunk arg.offset (((g.xdr xdr2str).drop arg.offset).take arg.size) := by
  obtain ⟨f, hf, hsame⟩ := hheld.get_fst (k := key g) hτ hnow fun w hw => hw.key
  have hlen : (((g.xdr xdr2str).drop arg.offset).take arg.size).length = arg.size := by
    rw [List.length_take, List.length_drop]
    omega
  unfold Pubd.getchunk
  dsimp only
  rw [hkey, hf]
  dsimp only
  rw [hsame.getChunk hsize hend]
  exact if_pos hlen

end Lemmas

end Pubd

end Okws
