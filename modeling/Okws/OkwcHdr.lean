import Okws.InHdr
import Okws.Scalar

namespace Okws

open Lib

/-- `state_t`, and the values behind its last one. -/
inductive OkwcHdrSt
  | start | spc1 | statusNum | spc2 | statusDesc | eol1 | key | spc3 | value | eol2a | eol2b
  | beyond
  deriving DecidableEq

namespace OkwcHdrSt

/-- `state + 1`. -/
def inc : OkwcHdrSt → OkwcHdrSt
  | start => spc1
  | spc1 => statusNum
  | statusNum => spc2
  | spc2 => statusDesc
  | statusDesc => eol1
  | eol1 => key
  | key => spc3
  | spc3 => value
  | value => eol2a
  | eol2a => eol2b
  | eol2b | beyond => beyond

/-- The state after an action that returned `ABUF_OK`. -/
def after : OkwcHdrSt → OkwcHdrSt
  | eol2b => key
  | q => q.inc

end OkwcHdrSt

/-- `HTTP_NO_STATUS`. -/
def Http.noStatus : Int := 0

/-- What the parser is configured with: `convertint` of the library, `okwc_scratch_sz`,
`okwc_def_contlen`, and the configuration of the parsers of cookies. -/
structure OkwcHdrConfig where
  convertint : Str → Option Int
  scratchSz : Nat
  defContlen : Int
  cgi : CgiConfig

namespace Cgi

/-- A parser on a buffer that somebody else reads from too, with the counter of blanks of that
buffer. -/
def load (c : Cgi) (spcs : Nat) (t : Tape) : Cgi := { c with spcs := spcs, tape := t }

def park (c : Cgi) : Cgi := c.load 0 { toks := [] }

/-- `push_back_new`. -/
def newCookie (scratchSz : Nat) : Cgi where
  pstate := .ckey
  uriMode := false
  word := { cap := scratchSz }
  tape := { toks := [] }

end Cgi

/-- The parser.  `cookie` holds the tables of the cookies that are parsed, and `ck` is the one that
is at work; while there is one, `ret_state` is `OKWC_HDR_EOL2A`. -/
structure OkwcHdr where
  state : OkwcHdrSt := .start
  ck : Option Cgi := none
  cookie : List PairTab := []
  scr : Scratch
  needLF : Bool := false
  spcs : Nat := 0
  vers : Option Str := none
  statusDesc : Option Str := none
  statusParse : Int := Http.noStatus
  statusHeader : Int := Http.noStatus
  cleanEoh : Bool := false
  noins : Bool := false
  key : Option Str := none
  val : Option Str := none
  tab : PairTab := .empty

/-- What is there when `finish_parse` is called. -/
structure OkwcHdrOut where
  status : Int
  tab : PairTab
  cookie : List PairTab
  contlen : Int
  hasBody : Bool
  keepalive : Bool
  deriving DecidableEq

/-- `strtoll` on the whole of a C string. -/
def strtoll (s : Str) : Option Int :=
  match Scalar.number (cstr s) with
  | none => none
  | some (neg, n, rest) =>
    if rest ≠ [] ∨ (if neg then 2 ^ 63 < n else 2 ^ 63 ≤ n) then none
    else some (if neg then -n else n)

namespace PairTab

/-- `lookup (const str &, int *)`: the first of the values, if all of them are numbers. -/
def lookupInt (t : PairTab) (key : Str) : Option Int :=
  ((t.lookup key).bind fun vals => (vals.mapM strtoll).bind (·.head?)).map (·.bmod (2 ^ 32))

/-- `lookup (const str &, str *)`. -/
def lookupStr (t : PairTab) (key : Str) : Option Str := (t.lookup key).bind (·.head?)

end PairTab

def cicmp (s₁ s₂ : Str) : Bool :=
  (cstr s₁).map Byte.toLower == (cstr s₂).map Byte.toLower

namespace OkwcHdr

section Calls

/-- One of the `delimit` functions, and what is done with the word. -/
def word (S : Scanner UInt8 Scratch (Except Stat Str)) (set : OkwcHdr → Str → Stat × OkwcHdr) :
    Reader OkwcHdr :=
  .ofScan S scr (fun v s => { v with scr := s }) fun v r => match r with
    | .ok s => set v s
    | .error e => (e, v)

def skipHws (mn : Nat) : Reader OkwcHdr :=
  .ofScan (skipHwsScanner mn) spcs (fun v k => { v with spcs := k }) fun v r => (r, v)

def eol : Reader OkwcHdr := .ofScan Okws.eol (fun _ => ()) (fun v _ => v) fun v r => (r, v)

/-- `gobble_crlf` at the beginning of a line: an empty line is the end of the header. -/
def gobbleCrlf : Reader OkwcHdr :=
  .ofScan Okws.gobbleCrlf needLF (fun v b => { v with needLF := b }) fun v r =>
    if r = .ok then (.eof, { v with cleanEoh := true }) else (r, v)

def requireCrlf : Reader OkwcHdr :=
  .ofScan Okws.gobbleCrlf needLF (fun v b => { v with needLF := b })
    fun v r => (Okws.requireCrlf r, v)

def setVers (v : OkwcHdr) (s : Str) : Stat × OkwcHdr :=
  (.ok, { v with
    vers := some s
    statusParse := if v.statusParse = Http.noStatus then Http.ok else v.statusParse })

def setStatus (cfg : OkwcHdrConfig) (v : OkwcHdr) (s : Str) : Stat × OkwcHdr :=
  match cfg.convertint s with
  | some n => (.ok, { v with statusHeader := n })
  | none => (.parseErr, v)

def setStatusDesc (v : OkwcHdr) (s : Str) : Stat × OkwcHdr :=
  (.ok, { v with statusDesc := some s })

def setKey (v : OkwcHdr) (s : Str) : Stat × OkwcHdr := (.ok, { v with key := some s })

def setVal (v : OkwcHdr) (s : Str) : Stat × OkwcHdr := (.ok, { v with val := some s })

/-- The line of a field up to its colon, or the end of the header. -/
def fieldKey : Reader OkwcHdr := gobbleCrlf.onStat .nomatch (word delimitKey setKey)

end Calls

def isSetCookie (v : OkwcHdr) : Bool :=
  v.key.map (·.map Byte.toLower) ==
    some (ascii ['s', 'e', 't', '-', 'c', 'o', 'o', 'k', 'i', 'e'])

variable (cfg : OkwcHdrConfig)

/-- The switch in the loop of `parse_guts`. -/
def act : OkwcHdrSt → Reader OkwcHdr
  | .start => word (delimitWord false) setVers
  | .spc1 => skipHws 1
  | .statusNum => word (delimitWord false) (setStatus cfg)
  | .spc2 => fun v t => match eol v t with
    | (r, v', t') => if r = some .ok then (r, v', t') else skipHws 1 v' t'
  | .statusDesc => eol.onStat .nomatch (word delimitVal setStatusDesc)
  | .eol1 => requireCrlf
  | .key => fieldKey
  | .spc3 => skipHws 1
  | .value => fun v t =>
    if v.isSetCookie then
      (some .ok, { v with noins := true, ck := some (Cgi.newCookie cfg.scratchSz) }, t)
    else word delimitVal setVal v t
  | .eol2a => fun v t =>
    if v.noins then (some .ok, { v with noins := false, key := none, val := none }, t)
    else if v.key.isSome then
      (some .ok, { v with tab := v.tab.insert v.key v.val true true, key := none, val := none }, t)
    else (some .parseErr, { v with key := none, val := none }, t)
  | .eol2b => requireCrlf
  | .beyond => fun v t => (some .parseErr, v, t)

/-- `parse_guts` behind its loop, with `fixup`. -/
def finish (v : OkwcHdr) : OkwcHdrOut :=
  let contlen := v.tab.lookupInt
    (ascii ['c', 'o', 'n', 't', 'e', 'n', 't', '-', 'l', 'e', 'n', 'g', 't', 'h'])
  let conn := v.tab.lookupStr (ascii ['c', 'o', 'n', 'n', 'e', 'c', 't', 'i', 'o', 'n'])
  { status :=
      if v.statusHeader ≠ Http.noStatus then v.statusHeader
      else if v.cleanEoh then v.statusParse
      else Http.badRequest
    tab := v.tab
    cookie := v.cookie
    contlen := if contlen.getD 0 = 0 then cfg.defContlen else contlen.getD 0
    hasBody := contlen.isSome
    keepalive := conn.any (cicmp · (ascii ['k', 'e', 'e', 'p', '-', 'a', 'l', 'i', 'v', 'e'])) }

/-- The end of a round of the loop in `parse_guts`.  A callback from the buffer, also the one
that starts the parser of a cookie, comes with `can_read`. -/
def outcome : Option Stat × OkwcHdr × Tape → Iter (OkwcHdr × Tape) OkwcHdrOut
  | (none, v, t) => .wait (v, t)
  | (some .ok, v, t) =>
    if v.ck.isSome then .next (v, t.canRead) else .next ({ v with state := v.state.after }, t)
  | (some _, v, _) => .stop (v.finish cfg)

/-- The end of a round of the parser of a cookie, and `ext_parse_cb`. -/
def subOutcome (v : OkwcHdr) : Stat × Cgi → Iter (OkwcHdr × Tape) OkwcHdrOut
  | (.wait, c) => .wait ({ v with ck := some c.park, spcs := c.spcs }, c.tape)
  | (.eof, c) =>
    .next ({ v with ck := none, cookie := v.cookie ++ [c.tab], spcs := c.spcs, state := .eol2a },
      c.tape.canRead)
  | (_, c) => .next ({ v with ck := some c.park, spcs := c.spcs }, c.tape)

/-- `parse_guts`, one round of a loop at a time. -/
def machine : Machine (OkwcHdr × Tape) OkwcHdrOut where
  step := fun (v, t) => match v.ck with
    | some c => subOutcome v ((c.load v.spcs t).parseGutsDriver cfg.cgi)
    | none => outcome cfg (act cfg v.state v t)
  resume := fun (v, t) => (v, t.canRead)

def start (rs : List Str) : OkwcHdr × Tape :=
  ({ scr := { cap := cfg.scratchSz } }, ({ src := rs } : Abuf).toTape)

end OkwcHdr

end Okws
