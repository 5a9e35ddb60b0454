import Okws.Hdr
import Okws.Cgi

namespace Okws

open Lib

namespace Tape

def mirror (t : Tape) (len : Nat) : Tape := { t with mir := some ⟨[], len⟩ }

/-- `end_mirror`; without a buffer the string is empty. -/
def endMirror (t : Tape) : Str × Tape :=
  (match t.mir with
    | some m => (m.text.reverse.dropWhile Byte.isEol).reverse
    | none => [], { t with mir := none })

end Tape

/-- `inhdrst_t`, and the values behind its last one. -/
inductive InHdrSt
  | start | spc1 | target | uridat | spc2 | optparam | eol1 | key | spc3 | value | eol2a | eol2b
  | beyond
  deriving DecidableEq

namespace InHdrSt

/-- `INC_STATE`. -/
def inc : InHdrSt → InHdrSt
  | start => spc1
  | spc1 => target
  | target => uridat
  | uridat => spc2
  | spc2 => optparam
  | optparam => eol1
  | eol1 => key
  | key => spc3
  | spc3 => value
  | value => eol2a
  | eol2a => eol2b
  | eol2b | beyond => beyond

end InHdrSt

/-- `http_method_t`. -/
inductive HttpMethod
  | none | post | put | delete | get | head | options
  deriving DecidableEq

def methodmap : List (Str × HttpMethod) :=
  [(ascii ['G', 'E', 'T'], .get), (ascii ['P', 'O', 'S', 'T'], .post),
    (ascii ['P', 'U', 'T'], .put), (ascii ['D', 'E', 'L', 'E', 'T', 'E'], .delete),
    (ascii ['H', 'E', 'A', 'D'], .head), (ascii ['O', 'P', 'T', 'I', 'O', 'N', 'S'], .options)]

/-- What the parser is configured with, and what the source says about its own overflow. -/
structure InHdrConfig where
  parseQueryString : Bool
  parseCookies : Bool
  pipelineEofOk : Bool
  overflow : Bool

def scr2Len : Nat := 1024

namespace Http

def ok : Nat := 200
def badRequest : Nat := 400
def reqTooBig : Nat := 413
def uriTooBig : Nat := 414
def unexpectedEof : Nat := 417
def pipelineEof : Nat := 605

end Http

/-- The parser, less the two `cgi_t` inside it; `ext` says that one of them is at work.
`status` is the local variable of `parse_guts`, which is set when its loop is over. -/
structure InHdr where
  state : InHdrSt := .start
  ext : Bool := false
  scr : Scratch
  needLF : Bool := false
  spcs : Nat := 0
  tmthd : Option Str := none
  target : Option Str := none
  vers : Option Str := none
  nvers : Nat := 0
  line1 : Option Str := none
  key : Option Str := none
  val : Option Str := none
  noins : Bool := false
  tab : PairTab := .empty
  status : Nat := Http.badRequest

/-- What is there when `finish_parse` is called. -/
structure InHdrOut where
  status : Nat
  mthd : Option HttpMethod
  tmthd : Option Str
  target : Option Str
  vers : Option Str
  nvers : Nat
  line1 : Option Str
  tab : PairTab
  deriving DecidableEq

namespace InHdr

section Calls

def word (S : Scanner UInt8 Scratch (Except Stat Str)) (set : InHdr → Str → InHdr) : Reader InHdr :=
  .ofScan S scr (fun v s => { v with scr := s }) fun v r => match r with
    | .ok s => (.ok, set v s)
    | .error e => (e, v)

def skipHws (mn : Nat) : Reader InHdr :=
  .ofScan (skipHwsScanner mn) spcs (fun v k => { v with spcs := k }) fun v r => (r, v)

def eol : Reader InHdr := .ofScan Okws.eol (fun _ => ()) (fun v _ => v) fun v r => (r, v)

/-- `gobble_crlf` at the beginning of a line: an empty line is the end of the header. -/
def gobbleCrlf : Reader InHdr :=
  .ofScan Okws.gobbleCrlf needLF (fun v b => { v with needLF := b }) fun v r =>
    if r = .ok then (.eof, { v with status := Http.ok }) else (r, v)

def requireCrlf : Reader InHdr :=
  .ofScan Okws.gobbleCrlf needLF (fun v b => { v with needLF := b })
    fun v r => (Okws.requireCrlf r, v)

/-- `expectchar ('?')`, and what the parser does with the answer. -/
def expectQuery : Reader InHdr :=
  .ofScan (expectScanner 63) (fun _ => ()) (fun v _ => v) fun v r => match r with
    | .ok => (.ok, { v with ext := true })
    | .nomatch => (.ok, v)
    | r => (r, v)

def setVers (v : InHdr) (s : Str) : InHdr :=
  { v with
    vers := some s
    nvers := match s.getLast? with
      | some c => if 48 ≤ c ∧ c ≤ 57 then c.toNat - 48 else v.nvers
      | none => v.nvers }

end Calls

def iscookie (v : InHdr) : Bool :=
  v.key.map (·.map Byte.toLower) == some (ascii ['c', 'o', 'o', 'k', 'i', 'e'])

variable (cfg : InHdrConfig)

/-- The switch in the loop of `parse_guts`. -/
def act : InHdrSt → Reader InHdr
  | .start => fun v t =>
    word (delimitWord false) (fun v s => { v with tmthd := some s }) v (t.mirror scr2Len)
  | .spc1 => skipHws 1
  | .target => word (delimitWord cfg.parseQueryString) fun v s => { v with target := some s }
  | .uridat => expectQuery
  | .spc2 => fun v t => match eol v t with
    | (r, v', t') => if r = some .ok then (r, v', t') else skipHws 1 v' t'
  | .optparam => eol.onStat .nomatch (word (delimitWord false) setVers)
  | .eol1 => fun v t => requireCrlf { v with line1 := some t.endMirror.1 } t.endMirror.2
  | .key => gobbleCrlf.onStat .nomatch (word delimitKey fun v s => { v with key := some s })
  | .spc3 => skipHws 0
  | .value => fun v t =>
    if cfg.parseCookies && v.iscookie then (some .ok, { v with noins := true, ext := true }, t)
    else word delimitVal (fun v s => { v with val := some s }) v t
  | .eol2a => fun v t =>
    if v.noins then (some .ok, { v with noins := false, key := none, val := none }, t)
    else if v.key.isSome then
      (some .ok, { v with tab := v.tab.insert v.key v.val true true, key := none, val := none }, t)
    else (some .parseErr, { v with key := none, val := none }, t)
  | .eol2b => requireCrlf
  | .beyond => fun v t => (some .parseErr, v, t)

/-- The state after an action that returned `ABUF_OK`. -/
def after : InHdrSt → InHdrSt
  | .target => if cfg.parseQueryString then .uridat else .spc2
  | .eol2b => .key
  | q => q.inc

/-- `parse_guts` behind its loop. -/
def finish (r : Stat) (v : InHdr) : InHdrOut :=
  let status :=
    if r = .overflow ∨ (r = .eof ∧ cfg.overflow = true) then Http.reqTooBig else v.status
  let status :=
    if status = Http.badRequest ∧ r = .eof ∧ v.state = .start ∧ cfg.pipelineEofOk = true then
      Http.pipelineEof
    else status
  { status
    mthd := if status = Http.ok then some ((methodmap.lookup (v.tmthd.getD [])).getD .none)
      else none
    tmthd := v.tmthd, target := v.target, vers := v.vers, nvers := v.nvers, line1 := v.line1
    tab := v.tab }

end InHdr

/-- One round of the `cgi_t` that parses the query string (in state `uridat`) or the cookies, on
the buffer it shares with the header parser. -/
structure SubParser (N : Type) where
  parse : InHdrSt → Nat → N → Tape → Option Stat × Nat × N × Tape

namespace InHdr

variable {N : Type}

/-- The end of a round of the loop in `parse_guts`.  A callback from the buffer, also the one
that starts the inner parser, comes with `can_read`. -/
def outcome (cfg : InHdrConfig) (n : N) :
    Option Stat × InHdr × Tape → Iter (InHdr × N × Tape) InHdrOut
  | (none, v, t) => .wait (v, n, t)
  | (some .ok, v, t) =>
    if v.ext then .next (v, n, t.canRead)
    else .next ({ v with state := after cfg v.state }, n, t)
  | (some r, v, _) => .stop (v.finish cfg r)

/-- The end of a round of the inner parser, and `ext_parse_cb`. -/
def subOutcome (v : InHdr) : Option Stat × Nat × N × Tape → Iter (InHdr × N × Tape) InHdrOut
  | (none, k, n, t) => .wait ({ v with spcs := k }, n, t)
  | (some r, k, n, t) =>
    if r = .eof then .next ({ v with spcs := k, ext := false, state := v.state.inc }, n, t.canRead)
    else .next ({ v with spcs := k }, n, t)

/-- `parse_guts`, one round of a loop at a time. -/
def machine (cfg : InHdrConfig) (P : SubParser N) : Machine (InHdr × N × Tape) InHdrOut where
  step := fun (v, n, t) =>
    if v.ext then subOutcome v (P.parse v.state v.spcs n t)
    else outcome cfg n (act cfg v.state v t)
  resume := fun (v, n, t) => (v, n, t.canRead)

/-- `_url` and `_cookie`. -/
structure Cgis where
  url : Cgi
  cookie : Cgi

def Cgis.round (cfg : CgiConfig) (spcs : Nat) (c : Cgi)
    (t : Tape) : Option Stat × Nat × Cgi × Tape :=
  match Cgi.parseGutsDriver cfg { c with spcs := spcs, tape := t } with
  | (.wait, c') => (none, c'.spcs, c', c'.tape)
  | (r, c') => (some r, c'.spcs, c', c'.tape)

def cgis (cfg : CgiConfig) : SubParser Cgis where
  parse q spcs n t :=
    if q = .uridat then
      let (r, k, c, t') := Cgis.round cfg spcs n.url t
      (r, k, { n with url := c }, t')
    else
      let (r, k, c, t') := Cgis.round cfg spcs n.cookie t
      (r, k, { n with cookie := c }, t')

/-- A fresh parser with scratch buffers of `cap` and `cap₂` bytes. -/
def start (cap cap₂ : Nat) (rs : List Str) : InHdr × Cgis × Tape :=
  let t := ({ src := rs } : Abuf).toTape
  ({ scr := { cap := cap } },
    { url := { pstate := .key, uriMode := true, word := { cap := cap₂ }, tape := t }
      cookie := { pstate := .ckey, uriMode := false, word := { cap := cap₂ }, tape := t } }, t)

end InHdr

end Okws
