import Okws.Byte
import Okws.Lib.Flex

namespace Okws.Scan

open Lib.Flex

inductive Cond : Type
  | initial | h | txlcom | txlcom3 | p3 | p3Str | p3Regex | cComment | json | jsonStr
  | jsonSqStr
  deriving DecidableEq

inductive Keyword : Type
  | p3For | p3While | p3If | p3Locals | p3Include | p3Universals | p3Globals | p3Print | p3Elif
  | p3Else | p3Empty | p3Load | p3Case | p3Switch | p3Def | p3Null | p3Break | p3Return
  | p3Continue | p3Exit | p3Lambda
  deriving DecidableEq

/-- The tokens, with what is in `yylval`; a `str` may be NULL. -/
inductive Tok : Type
  /-- a character that is a token of its own -/
  | lit (c : UInt8)
  | keyword (k : Keyword)
  | p3Open | p3Close | p3BeginExpr | twoLBrace | twoRBrace | p3HtmlHeredoc | p3PubHeredoc
  | p3BcallOpen | p3BcallClose | p3UniversalScope | p3GlobalScope | p3True | p3False
  | p3Eqeq | p3Neq | p3Lteq | p3Gteq | p3Or | p3And | p3Pipe
  | p3Html (s : Str)
  | p3HtmlCh (c : UInt8)
  | p3WssBoundary (s : Str)
  | p3Char (c : UInt8)
  | p3String (s : Option Str)
  | p3Identifier (s : Str)
  | p3Uint (s : Str)
  | p3Int (s : Str)
  | p3Float (s : Str)
  | p3Regex (regex opts : Str)
  deriving DecidableEq

/-- The state of the scanner, all but `yy_p3_str_char` and the numbers of lines. -/
structure Scanner where
  /-- `YY_START` -/
  cond : Cond := .initial
  /-- the start conditions below it -/
  stack : List Cond := []
  dBrace : Int := 0
  dBracket : Int := 0
  p3Depth : Int := 0
  regexCloseChar : UInt8 := 0
  regexBuf : Str := []
  jsonBuf : Str := []
  deriving DecidableEq

structure Config where
  /-- `ok_pub2_compatibility_mode`, when the table of the identifiers is made -/
  pub2Compat : Bool := false
  /-- `ok_pub3_json_strict_escaping` -/
  strictEscaping : Bool := true

/-- What the action of a rule leaves, or the error it reports. -/
abbrev Result := Except Str (Option Tok × Scanner)

def yyerror {α : Type} (msg : String) : Except Str α := .error (ascii msg.toList)

namespace Scanner

variable (s : Scanner)

def push (c : Cond) : Scanner := { s with cond := c, stack := s.cond :: s.stack }

/-- `yy_pop_state`, which exits if there is nothing to pop. -/
def pop : Except Str Scanner :=
  match s.stack with
  | [] => yyerror "start-condition stack underflow"
  | c :: cs => .ok { s with cond := c, stack := cs }

def skip : Result := .ok (none, s)

def tok (t : Tok) : Result := .ok (some t, s)

def popSkip : Result := s.pop.map (none, ·)

def popTok (t : Tok) : Result := s.pop.map (some t, ·)

end Scanner

section Text

/-- `strtol (in, &ep, 16)` of a text of hex digits. -/
def strtol16 (t : Str) : Nat :=
  t.foldl (fun n b => 16 * n + (if b ≤ 57 then b.toNat - 48
    else if b ≤ 70 then b.toNat - 55 else b.toNat - 87)) 0

/-- `wcsrtombs` in a UTF-8 locale: at most `len` bytes, no part of a character; -1 if a value
is no character. -/
def wcsrtombs : List Nat → Nat → Option Str
  | [], _ => some []
  | w :: ws, len =>
    if w = 0 then some []
    else if w.isValidChar then
      let bs := String.utf8EncodeChar (Char.ofNat w)
      if bs.length ≤ len then (wcsrtombs ws (len - bs.length)).map (bs ++ ·) else some []
    else none

def unicodeToUtf8 (t : Str) : Option Str := wcsrtombs [strtol16 t, 0] 2

def hexToChar (t : Str) : UInt8 := .ofNat (strtol16 t)

def p3IdTab (compat : Bool) : List (Str × Keyword) :=
  [(ascii "for".toList, .p3For), (ascii "while".toList, .p3While), (ascii "if".toList, .p3If),
    (ascii "locals".toList, .p3Locals), (ascii "include".toList, .p3Include),
    (ascii "universals".toList, .p3Universals), (ascii "globals".toList, .p3Globals),
    (ascii "print".toList, .p3Print), (ascii "elif".toList, .p3Elif), (ascii "else".toList, .p3Else),
    (ascii "empty".toList, .p3Empty), (ascii "load".toList, .p3Load), (ascii "case".toList, .p3Case),
    (ascii "switch".toList, .p3Switch), (ascii "def".toList, .p3Def), (ascii "null".toList, .p3Null),
    (ascii "break".toList, .p3Break), (ascii "return".toList, .p3Return),
    (ascii "continue".toList, .p3Continue), (ascii "exit".toList, .p3Exit),
    (ascii "lambda".toList, .p3Lambda)] ++
  if compat then [(ascii "Switch21Tmp".toList, .p3Switch), (ascii "setl".toList, .p3Locals),
    (ascii "setle".toList, .p3Locals), (ascii "set".toList, .p3Globals)] else []

def p3Identifier (cfg : Config) (t : Str) : Tok :=
  match (p3IdTab cfg.pub2Compat).lookup t with
  | some k => .keyword k
  | none => .p3Identifier t

end Text

section Actions

variable (cfg : Config) (t : Str) (s : Scanner)

def pushP3Env : Result := { s with p3Depth := s.p3Depth + 1 }.push .p3 |>.tok .p3Open

def popP3Func : Result :=
  if s.p3Depth ≤ 0 then yyerror "Unbalanced '\x7b%' Pub3 tag at EOF\n"
  else { s with p3Depth := s.p3Depth - 1 }.popTok .p3Close

def htmlRBraces : Result :=
  if 0 < s.dBrace then { s with dBrace := s.dBrace - 1 }.popTok .twoRBrace
  else s.tok (.p3Html (cstr t))

def bracket4 : Result := { s with dBracket := s.dBracket + 2 }.push .txlcom |>.skip

def bracket3 : Result :=
  let s := { s with dBracket := s.dBracket + 1 }
  (if s.dBracket = 1 then s.push .txlcom3 else s.push .txlcom).skip

def bracket2 : Result :=
  let s := { s with dBracket := s.dBracket + 1 }
  (if 1 < s.dBracket then s.push .txlcom else s).skip

def bracketsRight : Result :=
  if 0 < s.dBracket then { s with dBracket := s.dBracket - 1 }.skip else s.tok (.p3Html (cstr t))

def comment3Right : Result := { s with dBracket := s.dBracket - 1 }.popSkip

def commentRight : Result :=
  let s := { s with dBracket := s.dBracket - 1 }
  if s.dBracket ≤ 1 then s.popSkip else s.skip

def heredocHtml : Result :=
  { s with dBrace := s.dBrace + 1 }.push .h |>.tok
    (if t.head? = some 61 then .p3HtmlHeredoc else .twoLBrace)

def regexBegin : Result :=
  match t.drop 1 with
  | [123] => { s with regexCloseChar := 125 }.push .p3Regex |>.skip
  | [60] => { s with regexCloseChar := 62 }.push .p3Regex |>.skip
  | [c] => { s with regexCloseChar := c }.push .p3Regex |>.skip
  | _ => s.skip

def regexAdd : Result := { s with regexBuf := s.regexBuf ++ cstr t }.skip

def regexClose : Result :=
  if t.head? = some s.regexCloseChar then
    { s with regexBuf := [] }.popTok (.p3Regex s.regexBuf (cstr (t.drop 1)))
  else regexAdd t s

def regexEscapeSequence : Result :=
  match t with
  | [b, c] => if c = s.regexCloseChar ∨ c = 92 then regexAdd [c] s else regexAdd [b, c] s
  | _ => s.skip

def jsonStrBegin (c : Cond) : Result := { s with jsonBuf := [] }.push c |>.skip

def jsonStrAddstr : Result := { s with jsonBuf := s.jsonBuf ++ cstr t }.skip

def jsonStrAddch (c : UInt8) : Result := jsonStrAddstr [c] s

def jsonStrAddUnicode : Result :=
  match unicodeToUtf8 t with
  | some u => jsonStrAddstr u s
  | none => s.skip

def jsonStrEnd : Result := { s with jsonBuf := [] }.popTok (.p3String (some s.jsonBuf))

def jsonOtherEscape : Result :=
  match t with
  | [b, c] =>
    if cfg.strictEscaping then
      .error (ascii "illegal escape sequence in string ('".toList ++ [b] ++ cstr [c] ++
        ascii "')".toList)
    else jsonStrAddch s c
  | _ => s.skip

/-- With `yytext[0]` once as a character and once as a number, which has a sign. -/
def jsonIllegalToken (c : UInt8) : Result :=
  .error (ascii "illegal token ('".toList ++ cstr [c] ++ ascii "'=".toList ++
    ascii (toString ((c.toNat : Int).bmod 256)).toList ++
    ascii ") in JSON environment".toList)

end Actions

/-- The actions: those of the rules for quotation marks in P3 and P3_STR, and all others. -/
inductive Act : Type
  | plain : (Str → Scanner → Result) → Act
  /-- `begin_P3_STR (yytext[0]); return yytext[0];` -/
  | beginStr
  /-- `if (end_P3_STR (yytext[0]))` and so on -/
  | endStr

section Patterns

def isDigit (b : UInt8) : Bool := 48 ≤ b && b ≤ 57

def isHex (b : UInt8) : Bool := isDigit b || 65 ≤ b && b ≤ 70 || 97 ≤ b && b ≤ 102

def isLowHex (b : UInt8) : Bool := isDigit b || 97 ≤ b && b ≤ 102

def isAlpha (b : UInt8) : Bool := 65 ≤ b && b ≤ 90 || 97 ≤ b && b ≤ 122

def isIdStart (b : UInt8) : Bool := isAlpha b || b == 95

def isIdChar (b : UInt8) : Bool := isIdStart b || isDigit b

def text (s : String) : Pat := .str (ascii s.toList)

def anyOf (s : String) : Pat := .oneOf (ascii s.toList)

def butNot (s : String) : Pat := .noneOf (ascii s.toList)

def word (s : String) : Pat :=
  s.toList.foldr (fun c p => .seq (.oneOf [c.toLower.toUInt8, c.toUpper.toUInt8]) p) .eps

/-- `.` -/
def dot : Pat := .noneOf [10]

def P3IDENT : Pat := .seq (.cls isIdStart) (.star (.cls isIdChar))

def uint : Pat :=
  .alt (.plus (.cls isDigit)) (.seq (text "0x") (.plus (.cls isLowHex)))

def float : Pat :=
  .seq (.opt (.chr 45)) (.seq (.star (.cls isDigit)) (.seq (.chr 46) (.plus (.cls isDigit))))

def int : Pat := .seq (.chr 45) (.plus (.cls isDigit))

end Patterns

section Rules

def rule (p : Pat) (f : Str → Scanner → Result) : Rule Act := { pat := p, act := .plain f }

def skips (p : Pat) : Rule Act := rule p fun _ s => s.skip

def returns (p : Pat) (t : Tok) : Rule Act := rule p fun _ s => s.tok t

/-- `return yytext[0];` -/
def returnsChar (p : Pat) : Rule Act :=
  rule p fun t s => s.tok (.lit (t.headD 0))

/-- `yylval.str = yytext; return ..;` -/
def returnsText (p : Pat) (tok : Str → Tok) : Rule Act :=
  rule p fun t s => s.tok (tok (cstr t))

/-- `return yyerror (..);` -/
def fails (p : Pat) (msg : String) : Rule Act := rule p fun _ _ => yyerror msg

def rulesH : List (Rule Act) :=
  [rule (text "\x7b%") fun _ s => pushP3Env s,
    rule (text "%\x7b") fun _ s => (s.push .p3).tok .p3BeginExpr,
    rule (.alt (.seq (.plus (.chr 92)) (text "%\x7b"))
      (.alt (.seq (.plus (.chr 92)) (text "\x7b%")) (.seq (.chr 92) (text "\x7d\x7d"))))
      fun t s => s.tok (.p3Html (cstr (t.drop 1))),
    rule (text "\x7d\x7d") htmlRBraces,
    returnsText (.plus (butNot "%\x7d\x7b\\[]<")) .p3Html,
    rule (anyOf "%\x7d\x7b\\[]<") fun t s => s.tok (.p3HtmlCh (t.headD 0)),
    returnsText (.seq (.chr 60) (.seq (.opt (.chr 47))
      (.alt (word "script") (.alt (word "pre") (word "textarea"))))) .p3WssBoundary]

def rulesBrackets : List (Rule Act) :=
  [rule (text "[[[[") fun _ s => bracket4 s,
    rule (text "[[[") fun _ s => bracket3 s,
    rule (text "[[") fun _ s => bracket2 s,
    rule (text "]]") bracketsRight,
    rule (.alt (.seq (.chr 92) (.alt (text "[[") (.alt (text "[[[") (text "[[[["))))
      (.seq (.chr 92) (text "]]"))) fun t s => s.tok (.p3Html (cstr (t.drop 1)))]

def rulesTXLCOM3 : List (Rule Act) :=
  [rule (text "]]]") fun _ s => comment3Right s,
    skips (.chr 10),
    skips (.alt (text "]") (text "]]")),
    skips (.plus (.noneOf [93, 10]))]

def rulesTXLCOM : List (Rule Act) :=
  [rule (text "[[") fun _ s => { s with dBracket := s.dBracket + 1 }.skip,
    skips (.seq (text "\\[") (.plus (.chr 91))),
    skips (.alt (.chr 91) (.alt (.chr 92) (.alt (.chr 93) (.plus (.noneOf [93, 91, 92, 10]))))),
    rule (text "]]") fun _ s => commentRight s,
    skips (.chr 10)]

def rulesStr : List (Rule Act) :=
  [rule (text "%\x7b") fun _ s => (s.push .p3).tok .p3BeginExpr,
    returns (text "\\n") (.p3Char 10),
    returns (text "\\t") (.p3Char 9),
    returns (text "\\r") (.p3Char 13),
    rule (.seq (.chr 92) (.seq (.chr 120) (.rep (.cls isHex) 2)))
      fun t s => s.tok (.p3Char (hexToChar (t.drop 2))),
    rule (.seq (.chr 92) (.seq (.chr 117) (.rep (.cls isHex) 4)))
      fun t s => s.tok (.p3String (unicodeToUtf8 (t.drop 2))),
    returns (.chr 10) (.p3Char 10),
    rule (.seq (.chr 92) dot) fun t s => s.tok (.p3Char ((t.drop 1).headD 0)),
    returns (.chr 37) (.p3Char 37),
    rule (anyOf "[]") fun t s => s.tok (.p3Char (t.headD 0)),
    { pat := .oneOf [34, 39], act := .endStr },
    returnsText (.plus (.noneOf [92, 37, 34, 39, 10, 91, 93])) fun s => .p3String (some s),
    fails dot "illegal token found in string"]

def rulesP3 (cfg : Config) : List (Rule Act) :=
  [skips (.chr 10),
    returns (text "universals::") .p3UniversalScope,
    returns (text "globals::") .p3GlobalScope,
    returns (.seq (anyOf "Tt") (text "rue")) .p3True,
    returns (.seq (anyOf "Ff") (text "alse")) .p3False,
    rule P3IDENT fun t s => s.tok (p3Identifier cfg t),
    rule (.seq (.chr 114) (anyOf "#/!@%\x7b<")) regexBegin,
    returnsText uint .p3Uint,
    returnsText float .p3Float,
    returnsText int .p3Int,
    returns (text "==") .p3Eqeq,
    returns (text "!=") .p3Neq,
    returns (text "<=") .p3Lteq,
    returns (text ">=") .p3Gteq,
    returnsChar (text "=>"),
    returnsChar (anyOf "%()!=><,[].+*:;/-"),
    rule (text "=\x7b") fun _ s => (s.push .p3).tok .p3PubHeredoc,
    returns (text "(*") .p3BcallOpen,
    returns (text "*)") .p3BcallClose,
    rule (.chr 123) fun _ s => (s.push .p3).tok (.lit 123),
    rule (.chr 125) fun _ s => s.popTok (.lit 125),
    returns (text "||") .p3Or,
    returns (.chr 124) .p3Pipe,
    returns (text "&&") .p3And,
    rule (text "%\x7d") fun _ s => popP3Func s,
    skips (.plus (.oneOf [32, 9, 13])),
    { pat := .oneOf [34, 39], act := .beginStr },
    { pat := .seq (text "//") (.seq (.star dot) (.chr 10)), back := 1
      act := .plain fun _ s => s.skip },
    rule (text "/*") fun _ s => (s.push .cComment).skip,
    rule (.seq (.opt (.chr 61)) (text "\x7b\x7b")) heredocHtml,
    fails dot "illegal token in Pub v3 environment"]

def rulesRegex : List (Rule Act) :=
  [rule (.chr 10) regexAdd,
    rule (.seq (anyOf "#/!@%\x7d>)]") (.star (.cls isAlpha))) regexClose,
    rule (.seq (.chr 92) (anyOf "#/!@%\x7d>)]")) regexEscapeSequence,
    rule (.alt (.plus (butNot "#/!@%\x7d>)]\n\\")) (.chr 92)) regexAdd]

def rulesJSON : List (Rule Act) :=
  [skips (.chr 10),
    skips (.plus (.oneOf [32, 9, 13])),
    returnsChar (anyOf "[\x7b:,\x7d]"),
    returnsText uint .p3Uint,
    returnsText float .p3Float,
    returnsText int .p3Int,
    returns (text "true") .p3True,
    returns (text "false") .p3False,
    returns (text "null") (.keyword .p3Null),
    rule (.chr 34) fun _ s => jsonStrBegin s .jsonStr,
    rule (.chr 39) fun _ s => jsonStrBegin s .jsonSqStr,
    rule dot fun t _ => jsonIllegalToken (t.headD 0)]

/-- The rules of JSON_STR or JSON_SQ_STR alone, for the quotation mark `q`. -/
def rulesQuoted (q : UInt8) : List (Rule Act) :=
  [rule (.chr q) fun _ s => jsonStrEnd s,
    rule (.str [92, q]) fun _ s => jsonStrAddch s 34,
    rule (.plus (.noneOf [92, 10, q])) jsonStrAddstr]

def rulesEscapes (cfg : Config) : List (Rule Act) :=
  [rule (.chr 10) fun _ s => jsonStrAddch s 10,
    rule (text "\\\\") fun _ s => jsonStrAddch s 92,
    rule (text "\\n") fun _ s => jsonStrAddch s 10,
    rule (text "\\r") fun _ s => jsonStrAddch s 13,
    rule (text "\\t") fun _ s => jsonStrAddch s 9,
    rule (.seq (.chr 92) (.seq (.chr 117) (.rep (.cls isHex) 4)))
      fun t s => jsonStrAddUnicode (t.drop 2) s,
    rule (text "\\b") fun _ s => jsonStrAddch s 8,
    rule (text "\\/") fun _ s => jsonStrAddch s 47,
    rule (.seq (.chr 92) dot) (jsonOtherEscape cfg)]

def rulesComment : List (Rule Act) :=
  [skips (.chr 10),
    rule (text "*/") fun _ s => s.popSkip,
    skips (.alt (.chr 42) (.plus (.noneOf [42, 10])))]

/-- The rules of a start condition, in the order of the file. -/
def rules (cfg : Config) : Cond → List (Rule Act)
  | .initial => [returnsChar (.chr 10)]
  | .h => rulesH ++ rulesBrackets
  | .txlcom3 => rulesTXLCOM3
  | .txlcom => rulesTXLCOM
  | .p3Str => rulesBrackets ++ rulesStr
  | .p3 => rulesP3 cfg
  | .p3Regex => rulesRegex
  | .json => rulesJSON
  | .jsonStr => rulesQuoted 34 ++ rulesEscapes cfg
  | .jsonSqStr => rulesQuoted 39 ++ rulesEscapes cfg
  | .cComment => rulesComment

/-- What the generated scanner does with a byte that no rule matches. -/
def echo : Act := .plain fun _ s => s.skip

/-- The action for what is next, its `yytext`, and the input behind that. -/
def next (cfg : Config) (c : Cond) (input : Str) : Act × Str × Str :=
  match pick (rules cfg c) input with
  | some (r, n) => (r.act, input.take (n - r.back), input.drop (n - r.back))
  | none => (echo, input.take 1, input.drop 1)

end Rules

end Okws.Scan
