import Okws.Scanner

namespace Okws.Scan

/-- What a scanner remembers of the quotation marks the open strings began with. -/
structure Delims (M : Type) where
  opened : UInt8 → M → M
  closes : UInt8 → M → Bool
  closed : M → M

/-- `begin_P3_STR` and `end_P3_STR`, with `yy_p3_str_char`. -/
def yyP3StrChar : Delims UInt8 where
  opened ch _ := ch
  closes ch m := m == ch
  closed m := m

/-- Each string has a quotation mark of its own, the innermost first. -/
def own : Delims (List UInt8) where
  opened := .cons
  closes ch m := m.head? == some ch
  closed := .tail

structure Lexer (M : Type) where
  scanner : Scanner
  delims : M
  input : Str
  deriving DecidableEq

inductive Lexeme : Type
  | plain (text : Str) (tok : Option Tok)
  /-- a quotation mark with which a string begins -/
  | opens (q : UInt8)
  /-- one with which a string ends -/
  | closes (q : UInt8)
  /-- one that is a character of a string -/
  | inner (q : UInt8)
  deriving DecidableEq

def Lexeme.tok : Lexeme → Option Tok
  | .plain _ tok => tok
  | .opens q => some (.lit q)
  | .closes q => some (.lit q)
  | .inner q => some (.p3Char q)

section Lex

variable {M : Type} (cfg : Config) (D : Delims M)

/-- The next lexeme, if the input goes on and there is no error. -/
def lex (x : Lexer M) : Option (Lexeme × Lexer M) :=
  if x.input = [] then none
  else match next cfg x.scanner.cond x.input with
    | (.plain f, text, rest) =>
      match f text x.scanner with
      | .ok (tok, s) => some (.plain text tok, { scanner := s, delims := x.delims, input := rest })
      | .error _ => none
    | (.beginStr, text, rest) =>
      let q := text.headD 0
      some (.opens q, { scanner := x.scanner.push .p3Str, delims := D.opened q x.delims
                        input := rest })
    | (.endStr, text, rest) =>
      let q := text.headD 0
      if D.closes q x.delims then
        match x.scanner.pop with
        | .ok s => some (.closes q, { scanner := s, delims := D.closed x.delims, input := rest })
        | .error _ => none
      else some (.inner q, { x with input := rest })

/-- The lexemes that take one state to another, in order. -/
inductive Reads : Lexer M → List Lexeme → Lexer M → Prop
  | nil (x : Lexer M) : Reads x [] x
  | cons {x y z : Lexer M} {l : Lexeme} {ls : List Lexeme} :
      lex cfg D x = some (l, y) → Reads y ls z → Reads x (l :: ls) z

end Lex

section Literals

variable (cfg : Config)

/-- The lexemes up to the one with which the last open string ends. -/
inductive Within : Lexer (List UInt8) → List Lexeme → Lexer (List UInt8) → Prop
  | last {x y : Lexer (List UInt8)} {l : Lexeme} :
      lex cfg own x = some (l, y) → y.delims = [] → Within x [l] y
  | next {x y z : Lexer (List UInt8)} {l : Lexeme} {ls : List Lexeme} :
      lex cfg own x = some (l, y) → y.delims ≠ [] → Within y ls z → Within x (l :: ls) z

/-- A string with all that is nested in it, read so that each string ends at its own quotation
mark. -/
inductive Literal : Lexer (List UInt8) → UInt8 → List Lexeme → Lexer (List UInt8) → Prop
  | mk {x y z : Lexer (List UInt8)} {q : UInt8} {ls : List Lexeme} :
      x.delims = [] → lex cfg own x = some (.opens q, y) → Within cfg y ls z → Literal x q ls z

/-- The scanner reads the same lexemes, whatever string it has read before. -/
def ReadAlike (x : Lexer (List UInt8)) (q : UInt8) (ls : List Lexeme)
    (z : Lexer (List UInt8)) : Prop :=
  ∀ ch, ∃ ch', Reads cfg yyP3StrChar ⟨x.scanner, ch, x.input⟩ (.opens q :: ls)
    ⟨z.scanner, ch', z.input⟩

/-- A string ends where the last one that has begun has the same quotation mark, and a quotation
mark is a character where it has the other one. -/
def Lexeme.Agrees (last : UInt8) : Lexeme → Prop
  | .plain _ _ => True
  | .opens _ => True
  | .closes q => last = q
  | .inner q => last ≠ q

/-- The quotation mark of the string that has begun last. -/
def Lexeme.begun (last : UInt8) : Lexeme → UInt8
  | .opens q => q
  | _ => last

def LastAgrees : UInt8 → List Lexeme → Prop
  | _, [] => True
  | last, l :: ls => l.Agrees last ∧ LastAgrees (l.begun last) ls

end Literals

section Agreement

variable {cfg : Config} {x y z : Lexer (List UInt8)} {l : Lexeme} {ls : List Lexeme}
variable {last q : UInt8} {w : Lexer UInt8}

theorem lex_alike (h : lex cfg own x = some (l, y)) :
    lex cfg yyP3StrChar ⟨x.scanner, last, x.input⟩ = some (l, w) ↔
      l.Agrees last ∧ w = ⟨y.scanner, l.begun last, y.input⟩ := by
  unfold lex at h ⊢
  dsimp only at h ⊢
  split at h
  · cases h
  · next hne =>
    rw [if_neg hne]
    split at h
    · next f text rest hnext =>
      split at h
      · cases h
        simp [Lexeme.Agrees, Lexeme.begun, eq_comm]
      · cases h
    · next text rest hnext =>
      cases h
      simp [Lexeme.Agrees, Lexeme.begun, yyP3StrChar, eq_comm]
    · next text rest hnext =>
      generalize text.headD 0 = c at h ⊢
      have hcloses : yyP3StrChar.closes c last = (last == c) := rfl
      rw [hcloses]
      by_cases hc : last = c
      · simp only [hc, beq_self_eq_true, ↓reduceIte]
        split at h
        · split at h
          · cases h
            simp [Lexeme.Agrees, Lexeme.begun, yyP3StrChar, eq_comm]
          · cases h
        · cases h
          simp only [Lexeme.Agrees, ne_eq, not_true_eq_false, false_and, iff_false]
          split
          · rintro ⟨⟩
          · rintro ⟨⟩
      · simp only [beq_false_of_ne hc, Bool.false_eq_true, ↓reduceIte]
        split at h
        · split at h
          · cases h
            simp [Lexeme.Agrees, hc]
          · cases h
        · cases h
          simp [Lexeme.Agrees, Lexeme.begun, hc, eq_comm]

theorem Within.reads_iff (h : Within cfg x ls z) :
    (∃ ch', Reads cfg yyP3StrChar ⟨x.scanner, last, x.input⟩ ls ⟨z.scanner, ch', z.input⟩) ↔
      LastAgrees last ls := by
  induction h generalizing last with
  | @last x y l hl _ =>
    constructor
    · rintro ⟨ch', h⟩
      cases h with
      | cons hlex _ => exact ⟨((lex_alike hl).1 hlex).1, trivial⟩
    · intro h
      exact ⟨_, .cons ((lex_alike hl).2 ⟨h.1, rfl⟩) (.nil _)⟩
  | @next x y z l ls hl _ _ ih =>
    constructor
    · rintro ⟨ch', h⟩
      cases h with
      | cons hlex hrest =>
        obtain ⟨hagrees, rfl⟩ := (lex_alike hl).1 hlex
        exact ⟨hagrees, ih.1 ⟨ch', hrest⟩⟩
    · intro h
      obtain ⟨ch', hrest⟩ := ih.2 h.2
      exact ⟨ch', .cons ((lex_alike hl).2 ⟨h.1, rfl⟩) hrest⟩

theorem Literal.lastAgrees (h : Literal cfg x q ls z) (hread : ReadAlike cfg x q ls z) :
    LastAgrees q ls := by
  cases h with
  | mk _ hl hin =>
    obtain ⟨ch', hreads⟩ := hread 0
    cases hreads with
    | cons hlex hrest =>
      obtain ⟨-, rfl⟩ := (lex_alike hl).1 hlex
      exact hin.reads_iff.1 ⟨ch', hrest⟩

theorem Literal.readAlike (h : Literal cfg x q ls z) (hlast : LastAgrees q ls) :
    ReadAlike cfg x q ls z := by
  cases h with
  | mk _ hl hin =>
    intro ch
    obtain ⟨ch', hrest⟩ := hin.reads_iff.2 hlast
    exact ⟨ch', .cons ((lex_alike hl).2 ⟨trivial, rfl⟩) hrest⟩

/-- The scanner ends every string of a nest where it should exactly if at each quotation mark
in one of them the string that has begun last has the right one. -/
theorem readAlike_iff_lastAgrees (h : Literal cfg x q ls z) :
    ReadAlike cfg x q ls z ↔ LastAgrees q ls :=
  ⟨h.lastAgrees, h.readAlike⟩

end Agreement

section Sample

def inExpr (text : String) : Lexer (List UInt8) where
  scanner := { cond := .p3, stack := [.h, .initial] }
  delims := []
  input := ascii text.toList

/-- What is behind the first mark of `"%{"it's"}"`, taken apart. -/
def uniform : List Lexeme :=
  [.plain [37, 123] (some .p3BeginExpr), .opens 34,
    .plain (ascii "it".toList) (some (.p3String (some (ascii "it".toList)))), .inner 39,
    .plain [115] (some (.p3String (some [115]))), .closes 34, .plain [125] (some (.lit 125)),
    .closes 34]

theorem literal_uniform :
    Literal {} (inExpr "\"%\x7b\"it's\"\x7d\"") 34 uniform (inExpr "") :=
  .mk rfl rfl <| .next rfl (by decide) <| .next rfl (by decide) <| .next rfl (by decide) <|
    .next rfl (by decide) <| .next rfl (by decide) <| .next rfl (by decide) <|
    .next rfl (by decide) <| .last rfl rfl

theorem readAlike_iff_lastAgrees_uniform :
    ReadAlike {} (inExpr "\"%\x7b\"it's\"\x7d\"") 34 uniform (inExpr "") ↔
      LastAgrees 34 uniform :=
  readAlike_iff_lastAgrees literal_uniform

/-- What is behind the first mark of `"%{'a'}"`, taken apart. -/
def mixed : List Lexeme :=
  [.plain [37, 123] (some .p3BeginExpr), .opens 39, .plain [97] (some (.p3String (some [97]))),
    .closes 39, .plain [125] (some (.lit 125)), .closes 34]

theorem literal_mixed : Literal {} (inExpr "\"%\x7b'a'\x7d\"") 34 mixed (inExpr "") :=
  .mk rfl rfl <| .next rfl (by decide) <| .next rfl (by decide) <| .next rfl (by decide) <|
    .next rfl (by decide) <| .next rfl (by decide) <| .last rfl rfl

/-- The outer string does not end at its quotation mark. -/
theorem not_readAlike_mixed :
    ¬∀ cfg x q ls z, Literal cfg x q ls z → ReadAlike cfg x q ls z := by
  intro h
  obtain ⟨-, -, -, -, -, hlast, -⟩ := literal_mixed.lastAgrees (h _ _ _ _ _ literal_mixed)
  have hne : (39 : UInt8) ≠ 34 := by decide
  exact hne hlast

end Sample

end Okws.Scan
