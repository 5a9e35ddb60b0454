import Okws.InHdr
import Okws.Lib.Kmp

/-! `cgi_mpfd_t`, the parser of multipart/form-data bodies, and the `contdisp_parser_t` inside it. -/

namespace Okws

open Lib

/-- `mpfdst_t`, and the values behind its last one. -/
inductive MpfdSt
  | start | eol0 | key | spc | value | eol1a | eol1b | search | search2 | search3 | eof | beyond
  deriving DecidableEq

/-- `MPFD_INC_STATE`. -/
def MpfdSt.inc : MpfdSt → MpfdSt
  | start => eol0
  | eol0 => key
  | key => spc
  | spc => value
  | value => eol1a
  | eol1a => eol1b
  | eol1b => search
  | search => search2
  | search2 => search3
  | search3 => eof
  | eof | beyond => beyond

/-- `mpfdkt_t`. -/
inductive MpfdKt
  | other | disposition | type
  deriving DecidableEq

/-- `contdisp_type_t`. -/
inductive ContdispType
  | none | formdat | attach
  deriving DecidableEq

/-- `contdisp_state_t`, and the values behind its last one. -/
inductive ContdispSt
  | start | sep1 | nameKey | nameVal | sep2a | sep2b | sep2c | filenameKey | filenameVal | beyond
  deriving DecidableEq

def ContdispSt.inc : ContdispSt → ContdispSt
  | start => sep1
  | sep1 => nameKey
  | nameKey => nameVal
  | nameVal => sep2a
  | sep2a => sep2b
  | sep2b => sep2c
  | sep2c => filenameKey
  | filenameKey => filenameVal
  | filenameVal | beyond => beyond

def mpfdKtmap : List (Str × MpfdKt) :=
  [(ascii ['c', 'o', 'n', 't', 'e', 'n', 't', '-', 'd', 'i', 's', 'p', 'o', 's', 'i', 't', 'i',
    'o', 'n'],
      .disposition),
    (ascii ['c', 'o', 'n', 't', 'e', 'n', 't', '-', 't', 'y', 'p', 'e'], .type)]

def formData : Str := ascii ['f', 'o', 'r', 'm', '-', 'd', 'a', 't', 'a']

def attachment : Str := ascii ['a', 't', 't', 'a', 'c', 'h', 'm', 'e', 'n', 't']

def nameEq : Str := ascii ['n', 'a', 'm', 'e', '=', '\"']

def filenameEq : Str := ascii ['f', 'i', 'l', 'e', 'n', 'a', 'm', 'e', '=', '\"']

/-- `kmp_matcher_t`, case-insensitive: the lowered pattern and the state. -/
structure Kmp where
  pattern : Str
  q : Nat := 0
  deriving DecidableEq

namespace Kmp

def pi (k : Kmp) : List Nat := Kmp.prefixTable k.pattern

/-- The state after the character `c`, before `match` looks whether the pattern is complete. -/
def move (k : Kmp) (c : UInt8) : Nat := Kmp.advance k.pattern k.pi k.q (Byte.toLower c)

/-- The loop of `match_boundary`, around `match`. -/
def scanner : Scanner UInt8 Kmp Stat where
  guard _ := none
  byte k c :=
    if k.move c = k.pattern.length then .done .ok { k with q := k.pi.getD (k.move c - 1) 0 }
    else .next { k with q := k.move c }
  eof k := .done .eof k

end Kmp

/-- `contdisp_parser_t`; `flag` is the local variable of `parse_guts`. -/
structure Contdisp where
  scr : Scratch
  currMatch : Option (Str × Str) := none
  typ : ContdispType := .none
  name : Option Str := none
  filename : Option Str := none
  state : ContdispSt := .start
  typScr : Option Str := none
  filenameScr : Option Str := none
  flag : Bool := true
  deriving DecidableEq

/-- `reset`, less what it does to the buffer. -/
def Contdisp.reset (c : Contdisp) : Contdisp :=
  { c with
    scr := { c.scr with text := [] }, currMatch := none, typ := .none, name := none
    filename := none, state := .start }

/-- `cgi_file_t`. -/
structure CgiFile where
  filename : Option Str
  type : Option Str
  dat : Str
  deriving DecidableEq

/-- `multipart_rxx` with its first group, and `tolower_s`. -/
structure MpfdConfig where
  multipartRxx : Str → Option Str
  tolowerS : Str → Str

/-- The parser.  `boundaries` has the last one first, and `cbm` says which of them is meant by
its place from the bottom, with 0 for `NULL`; `ext` says that `cdp` is at work; `crashed` that an
assertion or an access to memory has failed. -/
structure Mpfd where
  scr : Scratch
  needLF : Bool := false
  spcs : Nat := 0
  cdp : Contdisp
  boundaries : List Kmp
  cbm : Nat := 0
  state : MpfdSt := .start
  ext : Bool := false
  kt : MpfdKt := .other
  toStart : Bool := false
  contentTyp : Option Str := none
  cgiKey : Option Str := none
  dat : Str := []
  filename : Option Str := none
  nxtState : MpfdSt := .start
  attach : Bool := false
  matchEnded : Bool := false
  crashed : Bool := false
  tab : PairTab := .empty
  files : List (Str × CgiFile) := []
  deriving DecidableEq

/-- What is there when `finish_parse` is called. -/
structure MpfdResult where
  status : Nat
  tab : PairTab
  files : List (Str × CgiFile)
  deriving DecidableEq

/-- How `parse_guts` can return for the last time: with `finish_parse`, without it, or not at all. -/
inductive MpfdOut
  | finished (r : MpfdResult)
  | stalled
  | crash
  deriving DecidableEq

namespace Tape

/-- `end_mirror2`: the string, and what has been written to the buffer. -/
def endMirror2 (t : Tape) (sublen : Nat) : Option (Str × Str) :=
  match t.mir with
  | some m =>
    if m.text.length < sublen then none
    else
      let s := m.text.take (m.text.length - sublen)
      some (if s.drop (s.length - 2) = crlf then s.take (s.length - 2)
        else s, m.text.set s.length 0)
  | none => none

end Tape

/-- What stands before `pcp` when `w` has been written to the beginning of the buffer. -/
def Scratch.overlay (s : Scratch) (w : Str) : Scratch :=
  { s with text := (w ++ s.text.drop w.length).take s.text.length }

/-- The pair that `finsert` adds for a new key. -/
def PairTab.addPair (t : PairTab) (k : Str) : PairTab :=
  match h : t.find k with
  | some _ => t
  | none => t.insertPair ⟨k, [], true⟩ h

namespace Mpfd

variable (cfg : MpfdConfig)

def addBoundary (v : Mpfd) (b : Str) : Mpfd :=
  { v with boundaries := { pattern := cfg.tolowerS (45 :: 45 :: b) } :: v.boundaries }

def removeBoundary (v : Mpfd) : Mpfd := { v with boundaries := v.boundaries.tail, cbm := 0 }

def inc (v : Mpfd) : Mpfd := { v with state := v.state.inc }

def finsert (v : Mpfd) (k : Str) (f : CgiFile) : Mpfd :=
  { v with tab := v.tab.addPair k, files := v.files ++ [(k, f)] }

section Calls

def word (S : Scanner UInt8 Scratch (Except Stat Str)) (set : Mpfd → Str → Mpfd) : Reader Mpfd :=
  .ofScan S scr (fun v s => { v with scr := s }) fun v r => match r with
    | .ok s => (.ok, set v s)
    | .error e => (e, v)

def skipHws (mn : Nat) : Reader Mpfd :=
  .ofScan (skipHwsScanner mn) spcs (fun v k => { v with spcs := k }) fun v r => (r, v)

def skipWs : Reader Mpfd :=
  .ofScan skipWsScanner (fun _ => ()) (fun v _ => v) fun v r => (r, v)

def gobbleCrlf : Reader Mpfd :=
  .ofScan Okws.gobbleCrlf needLF (fun v b => { v with needLF := b }) fun v r => (r, v)

def requireCrlf : Reader Mpfd :=
  .ofScan Okws.gobbleCrlf needLF (fun v b => { v with needLF := b })
    fun v r => (Okws.requireCrlf r, v)

/-- The loop of `parse_2dash`; the variable is `ndash`. -/
def dashScanner : Scanner UInt8 Nat Stat where
  guard n := if n < 2 then none else some .ok
  byte n b := if b = 45 then .next (n + 1) else .back .nomatch n
  eof n := .done .eof n

/-- `parse_2dash`, and what the parser does with the answer. -/
def parse2dash : Reader Mpfd :=
  .ofScan dashScanner (fun _ => 0) (fun v _ => v) fun v r => match r with
    | .ok => (.ok, { v.removeBoundary with nxtState := .search })
    | .nomatch => (.ok, { v with nxtState := .key })
    | r => (r, v)

/-- `cbm` is the last boundary, and its search is not over. -/
def armed (v : Mpfd) : Bool := v.cbm == v.boundaries.length && !v.matchEnded

def head (v : Mpfd) : Kmp := v.boundaries.headD ⟨[], 0⟩

def setHead (v : Mpfd) (k : Kmp) : Mpfd := { v with boundaries := k :: v.boundaries.tail }

/-- The beginning of `match_boundary`. -/
def arm (v : Mpfd) : Mpfd :=
  if v.armed then v
  else { v.setHead { v.head with q := 0 } with matchEnded := false, cbm := v.boundaries.length }

/-- The buffer as the loop of `match_boundary` finds it. -/
def mirrored (dat : Bool) (v : Mpfd) (t : Tape) : Tape :=
  if dat && !v.armed then t.mirror v.scr.cap else t

/-- The loop of `match_boundary`. -/
def seek : Reader Mpfd :=
  .ofScan Kmp.scanner head setHead fun v r => (r, { v with matchEnded := true })

/-- `*dat = abuf->end_mirror2 (cbm->len ())`. -/
def endMirror2 (v : Mpfd) (t : Tape) : Mpfd :=
  match t.endMirror2 v.head.pattern.length with
  | some (s, w) => { v with dat := s, scr := v.scr.overlay w }
  | none => { v with crashed := true }

def matchBoundary (dat : Bool) : Reader Mpfd := fun v t =>
  if v.boundaries = [] then (some .parseErr, v, t)
  else
    match seek v.arm (mirrored dat v t) with
    | (some .ok, v', t') =>
      if dat then (some .ok, v'.endMirror2 t', t'.dropMirror) else (some .ok, v', t')
    | x => x

end Calls

def endHeader (v : Mpfd) : Mpfd :=
  if v.toStart then { v with state := .start, toStart := false } else { v with state := .search }

def setKt (v : Mpfd) (s : Str) : Mpfd := { v with kt := (mpfdKtmap.lookup s).getD .other }

def setContentTyp (v : Mpfd) (s : Str) : Mpfd :=
  match cfg.multipartRxx s with
  | some b => { v.addBoundary cfg b with contentTyp := some s, toStart := true }
  | none => { v with contentTyp := some s }

def endLine (v : Mpfd) : Stat × Mpfd :=
  if v.kt = .disposition then match v.cdp.typ with
    | .formdat =>
      (.ok, { v with
        cgiKey := v.cdp.name, filename := v.cdp.filename, attach := v.cdp.filename.isSome,
          state := .key })
    | .attach => (.ok, { v with filename := v.cdp.filename, attach := true, state := .key })
    | .none => (.parseErr, { v with state := .key })
  else (.ok, { v with state := .key })

def insertPart (v : Mpfd) : Mpfd :=
  match v.cgiKey with
  | some k =>
    if v.attach then { v.finsert k ⟨v.filename, v.contentTyp, v.dat⟩ with cgiKey := none }
    else { v with tab := v.tab.insert (some k) (some v.dat) true true, cgiKey := none }
  | none => v

def value : MpfdKt → Reader Mpfd
  | .disposition => fun v t => (some .ok, { v with ext := true }, t)
  | .type => (word delimitVal (setContentTyp cfg)).onOk inc
  | .other => (word delimitVal fun v _ => v).onOk inc

/-- The switch in the loop of `cgi_mpfd_t::parse_guts`. -/
def act : MpfdSt → Reader Mpfd
  | .start => (matchBoundary false).onOk inc
  | .eol0 => requireCrlf.onOk inc
  | .key => (gobbleCrlf.onOk endHeader).onStat .nomatch ((word delimitKey setKt).onOk inc)
  | .spc => fun v t => match skipHws 1 v t with
    | (r, v', t') =>
      let v' := { v' with cdp := v'.cdp.reset, spcs := 0 }
      (r, if r = some .ok then v'.inc else v', t'.dropMirror)
  | .value => fun v t => value cfg v.kt v t
  | .eol1a => requireCrlf.onOk inc
  | .eol1b => fun v t => (some v.endLine.1, v.endLine.2, t)
  | .search => (matchBoundary true).map fun r v => match r with
    | .ok => (.ok, v.insertPart.inc)
    | .parseErr => (.ok, { v with state := .eof })
    | r => (r, v)
  | .search2 => parse2dash.onOk inc
  | .search3 => requireCrlf.onOk fun v => { v with state := v.nxtState }
  | .eof => skipWs.onOk inc
  | .beyond => fun v t => (some .ok, v.inc, t)

/-- `parse_guts` behind its loop. -/
def finish (r : Stat) (v : Mpfd) : MpfdOut :=
  match r with
  | .eof => .finished ⟨if v.state = .eof then Http.ok else Http.unexpectedEof, v.tab, v.files⟩
  | .parseErr => .finished ⟨Http.badRequest, v.tab, v.files⟩
  | _ => .stalled

/-- The end of a round of the loop; the inner parser is started with `can_read`. -/
def outcome : Option Stat × Mpfd × Tape → Iter (Mpfd × Tape) MpfdOut
  | (none, v, t) => .wait (v, t)
  | (some r, v, t) =>
    if v.crashed then .stop .crash
    else if r = .ok then .next (v, if v.ext then t.canRead else t)
    else .stop (v.finish r)

end Mpfd

/-- `force_match`; the variable is what is still to come of the string. -/
def forceScanner : Scanner UInt8 Str Stat where
  guard _ := none
  byte s b := match s with
    | c :: s' =>
      if Byte.toLower b = Byte.toLower c then (if s' = [] then .done .ok [] else .next s')
      else .done .parseErr s
    | [] => .done .parseErr []
  eof s := .done .parseErr s

namespace Mpfd

section Disp

def dispWord (S : Scanner UInt8 Scratch (Except Stat Str)) (set : Contdisp → Str → Contdisp) :
    Reader Mpfd :=
  .ofScan S (fun v => v.cdp.scr) (fun v s => { v with cdp := { v.cdp with scr := s } })
    fun v r => match r with
      | .ok s => (.ok, { v with cdp := set v.cdp s })
      | .error e => (e, v)

def forceMatch (s : Str) : Reader Mpfd :=
  .ofScan forceScanner
    (fun v => match v.cdp.currMatch with
      | some (s', cp) => if s' = s then cp else s
      | none => s)
    (fun v cp => { v with cdp := { v.cdp with currMatch := some (s, cp) } })
    fun v r => (r, { v with cdp := { v.cdp with currMatch := none } })

/-- `eol`, and what the parser does with the answer. -/
def dispEol : Reader Mpfd :=
  .ofScan Okws.eol (fun _ => ()) (fun v _ => v) fun v r => match r with
    | .ok => (.ok, { v with cdp := { v.cdp with flag := false } })
    | .nomatch => (.ok, v)
    | r => (r, v)

def requirechar (c : UInt8) : Reader Mpfd :=
  .ofScan (expectScanner c) (fun _ => ()) (fun v _ => v)
    fun v r => (if r = .nomatch then .parseErr else r, v)

def setTyp (c : Contdisp) : Contdisp :=
  if mystrcmp (c.typScr.getD []) formData then { c with typ := .formdat }
  else if mystrcmp (c.typScr.getD []) attachment then
    { c with state := .filenameKey, typ := .attach }
  else c

/-- `filename` is `filename_scr` less its last character. -/
def setFilename (v : Mpfd) : Mpfd :=
  match v.cdp.filenameScr with
  | some (c :: s) =>
    { v with cdp := { v.cdp with filename := some ((c :: s).dropLast), flag := false } }
  | _ => { v with crashed := true }

/-- The last value: it ends in front of the line end, be it a CR or an LF. -/
def dispFilename : Reader Mpfd :=
  .ofScan (delimit Byte.cr false false) (fun v => v.cdp.scr)
    (fun v s => { v with cdp := { v.cdp with scr := s } })
    fun v r => match r with
      | .ok s => (.ok, setFilename { v with cdp := { v.cdp with filenameScr := some s } })
      | .error .parseErr => (.ok, setFilename v)
      | .error e => (e, v)

/-- The switch in the loop of `contdisp_parser_t::parse_guts`. -/
def dispAct : ContdispSt → Reader Mpfd
  | .start => dispWord (delimit 59 true true) fun c s => { c with typScr := some s }
  | .sep1 => fun v t => match skipHws 1 v t with
    | (r, v', t') => (r, { v' with cdp := setTyp v'.cdp }, t')
  | .nameKey => forceMatch nameEq
  | .nameVal => dispWord (delimit 34 false true) fun c s => { c with name := some s }
  | .sep2a => dispEol
  | .sep2b => requirechar 59
  | .sep2c => skipHws 0
  | .filenameKey => forceMatch filenameEq
  | .filenameVal => dispFilename
  | .beyond => fun v t => (some .ok, v, t)

end Disp

/-- The end of a round of the inner loop, and `ext_parse_cb`. -/
def dispOutcome : Option Stat × Mpfd × Tape → Iter (Mpfd × Tape) MpfdOut
  | (none, v, t) => .wait (v, t)
  | (some r, v, t) =>
    let v' := { v with cdp := { v.cdp with state := v.cdp.state.inc } }
    if v.crashed then .stop .crash
    else match r with
      | .ok =>
        if v.cdp.flag then .next (v', t)
        else .next ({ v'.inc with ext := false, cdp := { v'.cdp with flag := true } }, t.canRead)
      | .eof | .parseErr => .stop (.finished ⟨Http.badRequest, v.tab, v.files⟩)
      | _ => .stop .stalled

/-- `parse_guts`, one round of a loop at a time. -/
def machine (cfg : MpfdConfig) : Machine (Mpfd × Tape) MpfdOut where
  step := fun (v, t) =>
    if v.ext then dispOutcome (dispAct v.cdp.state v t) else outcome (act cfg v.state v t)
  resume := fun (v, t) => (v, t.canRead)

/-- A fresh parser with a scratch buffer of `cap` bytes, on a source that hands out `rs`, of
which at most `lim` bytes are read if that is not negative. -/
def start (cfg : MpfdConfig) (cap : Nat) (bs : List Str) (lim : Int)
    (rs : List Str) : Mpfd × Tape :=
  (bs.foldl (addBoundary cfg)
      { scr := { cap := cap }, cdp := { scr := { cap := cap } }, boundaries := [] },
    ({ src := rs, lim := lim } : Abuf).toTape)

end Mpfd

end Okws
