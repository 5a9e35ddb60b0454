import Mathlib.Algebra.Ring.Int.Defs
import Mathlib.Algebra.Ring.Nat
import Mathlib.Tactic.Common

namespace Okws

abbrev Str := List UInt8

instance : LawfulBEq Str := inferInstance

def ascii (s : List Char) : Str := s.map Char.toUInt8

namespace Byte

def ht : UInt8 := 9
def lf : UInt8 := 10
def cr : UInt8 := 13
def sp : UInt8 := 32

/-- The blanks `skip_hws` skips. -/
def isHws (b : UInt8) : Bool := b == sp || b == ht

def isEol (b : UInt8) : Bool := b == cr || b == lf

/-- `ch > 0 && isspace (ch)` in the C locale. -/
def isSpace (b : UInt8) : Bool := b == sp || (9 ≤ b && b ≤ 13)

def toLower (b : UInt8) : UInt8 := if 65 ≤ b ∧ b ≤ 90 then b + 32 else b

end Byte

def crlf : Str := [Byte.cr, Byte.lf]

/-- What a function that takes a `const char *` sees of a counted string. -/
def cstr (s : Str) : Str := s.takeWhile (· ≠ 0)

/-- `mystrcmp`, on NUL-terminated strings. -/
def mystrcmp (a b : Str) : Bool := cstr a == cstr b

end Okws
