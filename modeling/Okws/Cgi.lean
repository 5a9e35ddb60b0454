import Okws.Tape
import Okws.Pair
import Okws.Lib.Machine

namespace Okws

open Lib

/-- `cgi_var_t`. -/
inductive CgiVar
  | key | val | ckey | cval | none
  deriving DecidableEq

namespace CgiVar

def keyState : CgiVar → Bool
  | .key | .ckey => true
  | _ => false

def cookieState : CgiVar → Bool
  | .ckey | .cval => true
  | _ => false

/-- `STATE_TRANS`. -/
def trans : CgiVar → CgiVar
  | .key => .val
  | .val => .key
  | .ckey => .cval
  | _ => .ckey

end CgiVar

/-- `char_to_hex`, with the entries of `HEXVALTAB` that are not -1. -/
def charToHex (c : UInt8) : Option Nat :=
  if 48 ≤ c ∧ c ≤ 57 then some (c.toNat - 48)
  else if 65 ≤ c ∧ c ≤ 70 then some (c.toNat - 55)
  else if 97 ≤ c ∧ c ≤ 102 then some (c.toNat - 87)
  else none

/-- `hex_i`, `hex_h` and `hex_lch`. -/
structure Hex where
  i : Nat := 0
  h : Nat := 0
  lch : UInt8 := 0
  deriving DecidableEq

namespace Hex

/-- What the loop of `parse_hexchar` does with the digit `ch`. -/
def digit (x : Hex) (ch : UInt8) : Option Hex :=
  (charToHex ch).map fun t => { i := x.i + 1, h := if x.i = 0 then t else x.h * 16 + t, lch := ch }

/-- What `parse_hexchar` writes after its loop, with `room` bytes left. -/
def text (x : Hex) (room : Nat) : Str :=
  if x.i = 2 then [UInt8.ofNat x.h]
  else if 2 < room ∧ x.lch ≠ 0 then [37, x.lch]
  else [37]

end Hex

/-- The scratch buffer and the state of an escape: `text` is what stands before `pcp`,
`cap` the length of the buffer. -/
structure Word where
  text : Str := []
  cap : Nat
  inhex : Bool := false
  hex : Hex := {}
  deriving DecidableEq

/-- What the parser is configured with: the length a scratch buffer can grow to, and
`xss_escape` or nothing. -/
structure CgiConfig where
  limit : Nat
  filter : Str → Str

namespace CgiConfig

variable (cfg : CgiConfig)

def extendScratch (w : Word) : Word :=
  if w.cap < cfg.limit then { w with cap := min (w.cap * 2) cfg.limit } else w

/-- The top of the loop in `parse_key_or_val`. -/
def room (w : Word) : Word := if w.cap ≤ w.text.length then cfg.extendScratch w else w

def put (c : UInt8) (w : Word) : Word := cfg.room { w with text := w.text ++ [c] }

end CgiConfig

def Word.full (w : Word) : Bool := w.cap ≤ w.text.length

/-- The end of `parse_hexchar`. -/
def Word.endHex (w : Word) : Word :=
  { w with text := w.text ++ w.hex.text (w.cap - w.text.length), inhex := false, hex := {} }

/-- `parse_hexchar`. -/
def hexScanner : Scanner UInt8 Word Stat where
  guard _ := none
  byte w ch :=
    match w.hex.digit ch with
    | some x =>
      if x.i < 2 then .next { w with hex := x } else .done .ok { w with hex := x }.endHex
    | none => .back .ok w.endHex
  eof w := .done .eof w

section Parse

variable (cfg : CgiConfig) (vt : CgiVar) (uriMode : Bool)

/-- The switch in the loop of `parse_key_or_val`. -/
def keyOrValByte (w : Word) (ch : UInt8) : Act Word Stat :=
  if ch = 38 then
    match vt with
    | .key => .done .separator w
    | .val => .done .ok w
    | _ => .next (cfg.put ch w)
  else if ch = 61 then
    if vt.keyState then .done .ok w else .next (cfg.put ch w)
  else if ch = 59 then
    match vt with
    | .ckey => .done .separator w
    | .cval => .done .ok w
    | _ => .next (cfg.put ch w)
  else if ch = Byte.cr then
    if uriMode then .done .eof w
    else if vt.cookieState then .next w
    else .next (cfg.put ch w)
  else if ch = Byte.lf then
    if vt.cookieState || uriMode then .back .eof w else .next (cfg.put ch w)
  else if ch = 37 then .next { w with inhex := true }
  else if ch = 43 then .next (cfg.put Byte.sp w)
  else if Byte.isHws ch && uriMode then .back .eof w
  else .next (cfg.put ch w)

/-- The loop of `parse_key_or_val`.  With `inhex`, it is inside its call of `parse_hexchar`;
the character that this pushes back is the next one of the loop. -/
def keyOrValScanner : Scanner UInt8 Word Stat where
  guard w := if !w.inhex && w.full then some .overflow else none
  byte w ch :=
    if w.inhex then
      match hexScanner.byte w ch with
      | .next w' => .next w'
      | .done _ w' => .next (cfg.room w')
      | .back _ w' =>
        if (cfg.room w').full then .back .overflow (cfg.room w')
        else keyOrValByte cfg vt uriMode (cfg.room w') ch
    else keyOrValByte cfg vt uriMode w ch
  eof w := .done .eof w

/-- `parse_key_or_val` behind the loop. -/
def keyOrValEnd : Option Stat × Word × Tape → Stat × Option Str × Word × Tape
  | (none, w, t) => (.wait, none, w, t)
  | (some r, w, t) =>
    if r = .overflow ∨ w.full then (.overflow, none, { w with text := [] }, t)
    else (r, some (cfg.filter w.text), { w with text := [] }, t)

def parseKeyOrVal (w : Word) (t : Tape) : Stat × Option Str × Word × Tape :=
  if w.inhex then
    match scan Tape.device hexScanner w t with
    | (none, w', t') => (.wait, none, w', t')
    | (some r, w', t') =>
      if r = .eof then (.eof, none, w', t')
      else keyOrValEnd cfg (scan Tape.device (keyOrValScanner cfg vt uriMode) (cfg.room w') t')
  else keyOrValEnd cfg (scan Tape.device (keyOrValScanner cfg vt uriMode) (cfg.room w) t)

end Parse

structure Cgi where
  pstate : CgiVar
  uriMode : Bool
  word : Word
  key : Option Str := none
  tab : PairTab := .empty
  spcs : Nat := 0
  tape : Tape

namespace Cgi

/-- `parse_still_waiting`, with what it leaves of the buffer. -/
def parseStillWaiting (c : Cgi) : Bool × Cgi :=
  if c.pstate = .ckey ∧ c.word.text = [] then
    let (r, spcs, tape) := skipHws Tape.device 0 c.spcs c.tape
    (r = .wait, { c with spcs := spcs, tape := tape })
  else (false, c)

def processParsedKeyOrVal (rc : Stat) (s : Option Str) (c : Cgi) : Stat × Cgi :=
  match rc with
  | .separator => (.ok, { c with tab := c.tab.insert s none true true })
  | .ok =>
    if c.pstate.keyState then (.ok, { c with key := s, pstate := c.pstate.trans })
    else (.ok, { c with
      tab := c.tab.insert c.key s true true, key := none, pstate := c.pstate.trans })
  | .eof =>
    if c.pstate.keyState then (.eof, { c with tab := c.tab.insert s none true true })
    else (.eof, { c with tab := c.tab.insert c.key s true true })
  | rc => (rc, c)

/-- `parse_guts_driver` behind `parse_still_waiting`. -/
def parsePart (cfg : CgiConfig) (c : Cgi) : Stat × Cgi :=
  let (rc, s, word, tape) := parseKeyOrVal cfg c.pstate c.uriMode c.word c.tape
  processParsedKeyOrVal rc s { c with word := word, tape := tape }

def parseGutsDriver (cfg : CgiConfig) (c : Cgi) : Stat × Cgi :=
  match c.parseStillWaiting with
  | (true, c') => (.wait, c')
  | (false, c') => c'.parsePart cfg

/-- What the loop in `parse_guts` makes of a return code; the parser ends with its table. -/
def outcome : Stat × Cgi → Iter Cgi PairTab
  | (.eof, c) => .stop c.tab
  | (.wait, c) => .wait c
  | (_, c) => .next c

/-- `parse_guts`, one round of its loop at a time. -/
def machine (cfg : CgiConfig) : Machine Cgi PairTab where
  step c := outcome (c.parseGutsDriver cfg)
  resume c := { c with tape := c.tape.canRead }

end Cgi

end Okws
