import Mathlib.Data.List.DropRight
import Okws.Clone
import Okws.Proxy
import Okws.Whole

namespace Okws

open Lib

namespace Byte

theorem forall_fin {P : UInt8 → Prop} (h : ∀ n : Fin 256, P (.ofFin n)) (b : UInt8) :
    P b := h b.toFin

theorem toLower_toLower (b : UInt8) : toLower (toLower b) = toLower b := by
  unfold toLower
  grind

theorem toLower_cr (b : UInt8) : toLower b = cr → b = cr := by
  unfold toLower cr
  grind

theorem toLower_lf (b : UInt8) : toLower b = lf → b = lf := by
  unfold toLower lf
  grind

theorem toLower_sp (b : UInt8) : toLower b = sp → b = sp := by
  unfold toLower sp
  grind

end Byte

namespace PairTab

variable {t : PairTab} {k k' v : Str}

def first (t : PairTab) (k : Str) : Option Str := (t.lookup k).bind List.head?

theorem safeLookup_first (t : PairTab) (k : Str) : t.safeLookup k = cstr ((t.first k).getD []) := by
  unfold safeLookup first
  rcases t.lookup k with _ | _ | _ <;> rfl

theorem find_setVals (vals : List Str) :
    (t.setVals k vals).find k' = (t.find k').map fun p => if p.key = k then { p with vals := vals }
      else p := by
  unfold find setVals
  rw [List.find?_map]
  congr 2
  funext p
  simp only [Function.comp_apply]
  split <;> rfl

theorem find_insertPair {p : Pair} (h : t.find p.key = none) :
    (t.insertPair p h).find k' = (t.find k').or (if p.key = k' then some p else none) := by
  simp [find, insertPair, List.find?_append, List.find?_cons]
  split <;> simp_all

theorem lookup_insert (hk : k ≠ []) (e : Bool) :
    (t.insert (some k) (some v) true e).lookup k' =
      if k = k' then some ((t.lookup k').getD [] ++ [v]) else t.lookup k' := by
  simp only [insert, hk, if_false]
  split
  · next p hp =>
    have hkey := find_key hp
    simp only [lookup, find_setVals, if_true]
    by_cases hk' : k = k'
    · subst hk'
      simp [hp, hkey]
    · cases hf : t.find k' with
      | none => simp [hk']
      | some p' =>
        have hne : p'.key ≠ k := fun h => hk' (h.symm.trans (find_key hf))
        simp [hne, hk']
  · next hp =>
    simp only [lookup, find_insertPair]
    by_cases hk' : k = k'
    · subst hk'
      simp [hp]
    · simp [hk']

theorem first_insert (hk : k ≠ []) (e : Bool) :
    (t.insert (some k) (some v) true e).first k' =
      (t.first k').or (if k = k' then some v else none) := by
  rw [first, lookup_insert hk, first]
  by_cases hk' : k = k'
  · rcases t.lookup k' with _ | _ | _ <;> simp [hk']
  · simp [hk']

def ofList (fs : List (Str × Str)) : PairTab :=
  fs.foldl (fun t f => t.insert (some f.1) (some f.2) true true) .empty

/-- The values of the fields with the name `q`. -/
def under (q : Str) (fs : List (Str × Str)) : List Str := (fs.filter (·.1 = q)).map Prod.snd

theorem ofList_lookup (fs : List (Str × Str)) (q : Str) :
    (ofList fs).lookup q = if q = [] ∨ under q fs = [] then none else some (under q fs) := by
  induction fs using List.reverseRecOn with
  | nil => simp [ofList, under, lookup, find, empty]
  | append_singleton fs f ih =>
    have hsnoc : ofList (fs ++ [f]) = (ofList fs).insert (some f.1) (some f.2) true true := by
      simp [ofList]
    have hunder : under q (fs ++ [f]) = under q fs ++ if f.1 = q then [f.2] else [] := by
      by_cases hf : f.1 = q <;> simp [under, hf]
    rw [hsnoc, hunder]
    by_cases hnil : f.1 = []
    · rw [show insert _ (some f.1) (some f.2) true true = ofList fs by simp [insert, hnil], ih]
      by_cases hq : q = []
      · simp [hq]
      · simp [hnil, Ne.symm hq]
    · rw [lookup_insert hnil, ih]
      by_cases hf : f.1 = q
      · have hq : q ≠ [] := hf ▸ hnil
        by_cases hu : under q fs = [] <;> simp [hf, hq, hu]
      · simp [hf]

theorem ofList_first (fs : List (Str × Str)) {q : Str} (hq : q ≠ []) :
    (ofList fs).first q = (fs.find? (·.1 = q)).map Prod.snd := by
  rw [first, ofList_lookup, ← List.head?_filter, ← List.head?_map]
  change _ = (under q fs).head?
  cases under q fs <;> simp [hq]

end PairTab

namespace Hdr

/-- The lines in front of the empty one, without their line feeds; `none` is the beginning of a
line. -/
def lines : Option Str → Str → List Str
  | _, [] => []
  | none, p :: bytes => if Byte.isEol p then [] else lines (some [p]) bytes
  | some line, p :: bytes =>
    if p = Byte.lf then line :: lines none bytes else lines (some (line ++ [p])) bytes

/-- The empty line is there; `true` is the beginning of a line. -/
def complete : Bool → Str → Bool
  | _, [] => false
  | true, p :: bytes => Byte.isEol p || complete false bytes
  | false, p :: bytes => complete (p == Byte.lf) bytes

def field (line : Str) : Str × Str :=
  ((line.takeWhile (· ≠ 58)).map Byte.toLower,
    (line.dropWhile (· ≠ 58)).tail.takeWhile (!Byte.isEol ·))

/-- The fields of a request; the first line is not one. -/
def fields (bytes : Str) : List (Str × Str) := (lines none bytes).tail.map field

def tab (bytes : Str) : PairTab :=
  .ofList ((fields bytes).map fun f => (f.1, f.2.dropWhile Byte.isHws))

theorem lines_line {l u : Str} (bytes : Str) (h : Byte.lf ∉ u) :
    lines (some l) (u ++ Byte.lf :: bytes) = (l ++ u) :: lines none bytes := by
  induction u generalizing l with
  | nil => simp [lines]
  | cons b u ih =>
    simp only [List.mem_cons, not_or] at h
    have hb : ¬ b = Byte.lf := fun hb => h.1 hb.symm
    simp only [lines, List.cons_append, hb, if_false, ih h.2, List.append_assoc, List.nil_append]

theorem lines_cons {b : UInt8} {u : Str} (bytes : Str) (hb : Byte.isEol b = false)
    (h : Byte.lf ∉ u) :
    lines none (b :: u ++ Byte.lf :: bytes) = (b :: u) :: lines none bytes := by
  simp only [List.cons_append, lines, hb, Bool.false_eq_true, if_false, lines_line bytes h]
  rfl

theorem complete_line {u : Str} (bytes : Str) (h : Byte.lf ∉ u) :
    complete false (u ++ Byte.lf :: bytes) = complete true bytes := by
  induction u with
  | nil => rfl
  | cons b u ih =>
    simp only [List.mem_cons, not_or] at h
    have hb : (b == Byte.lf) = false := by simpa using fun hb => h.1 hb.symm
    rw [List.cons_append, complete, hb, ih h.2]

theorem complete_blank {b : UInt8} (bytes : Str) (hb : Byte.isEol b = true) :
    complete true (b :: bytes) = true := by
  simp [complete, hb]

theorem lines_blank {b : UInt8} (bytes : Str) (hb : Byte.isEol b = true) :
    lines none (b :: bytes) = [] := by
  simp [lines, hb]

variable {cfg : CloneConfig}

theorem scanLines_headers {line : Option Str} {s : HdrScan} (bytes : Str)
    (hline : ∀ l, line = some l → l ≠ []) :
    (Clone.scanLines cfg line s bytes).headers =
      s.headers ++ (lines line bytes).map fun l => tolowerS cfg.mem (l ++ crlf) := by
  induction bytes generalizing line s with
  | nil => cases line <;> simp [Clone.scanLines, lines]
  | cons p bytes ih =>
    cases line with
    | none =>
      simp only [Clone.scanLines, lines]
      split
      · simp
      · exact ih (by simp)
    | some line =>
      simp only [Clone.scanLines, lines]
      split
      · have hne : line ++ crlf ≠ crlf := by simpa using hline line rfl
        rw [if_neg hne, ih (fun l h => by cases h)]
        simp
      · exact ih (by simp)

theorem scanLines_complete {line : Option Str} {s : HdrScan} (bytes : Str)
    (hline : ∀ l, line = some l → l ≠ []) (hs : s.done = false) :
    (Clone.scanLines cfg line s bytes).done = complete line.isNone bytes := by
  induction bytes generalizing line s with
  | nil => cases line <;> exact hs
  | cons p bytes ih =>
    cases line with
    | none =>
      simp only [Clone.scanLines, Option.isNone_none, complete]
      cases hp : Byte.isEol p with
      | true => rfl
      | false => exact ih (by simp) hs
    | some line =>
      simp only [Clone.scanLines, Option.isNone_some, complete]
      by_cases hp : p = Byte.lf
      · have hne : line ++ crlf ≠ crlf := by simpa using hline line rfl
        rw [if_pos hp, if_neg hne, hp]
        exact ih (fun l h => by cases h) hs
      · rw [if_neg hp, beq_false_of_ne hp]
        exact ih (by simp) hs

theorem delimitHeaders_tab {bytes : Str} {d : DelimitRes} {st : Nat}
    (h : Clone.delimitHeaders cfg bytes = (some d, st)) :
    d.headers = ((lines none bytes).map fun l => tolowerS cfg.mem (l ++ crlf)).foldl
      (Clone.addHeader cfg) .empty := by
  unfold Clone.delimitHeaders at h
  dsimp only at h
  split at h
  · cases h
  · split at h
    · cases h
    · split at h
      · cases h
      · cases h
        rw [scanLines_headers bytes (fun l h => by cases h)]
        rfl

end Hdr

section Reads

variable {l : Str}

theorem read_hws (mn k : Nat) (l : Str) :
    ((skipHwsScanner mn).read k l).2.2 = l.dropWhile Byte.isHws := by
  induction l generalizing k with
  | nil => rfl
  | cons b l ih =>
    cases hb : Byte.isHws b with
    | true => simpa [Scanner.read, skipHwsScanner, hb] using ih (k + 1)
    | false => simp [Scanner.read, skipHwsScanner, hb]

theorem read_eol (l : Str) : (eol.read () l).2.2 = l := by
  cases l <;> rfl

theorem read_expect {c : UInt8} (hc : c ≠ Byte.lf) (l : Str) :
    ∃ u, l = u ++ ((expectScanner c).read () l).2.2 ∧ Byte.lf ∉ u := by
  cases l with
  | nil => exact ⟨[], rfl, by simp⟩
  | cons b l =>
    by_cases hb : b = c
    · subst hb
      exact ⟨[b], by simp [Scanner.read, expectScanner], by simpa using hc.symm⟩
    · exact ⟨[], by simp [Scanner.read, expectScanner, hb], by simp⟩

theorem read_tail (uriMode : Bool) (l : Str) :
    ∃ u, l = u ++ ((Cgi.tailScanner uriMode).read () l).2.2 ∧ Byte.lf ∉ u := by
  induction l with
  | nil => exact ⟨[], rfl, by simp⟩
  | cons b l ih =>
    by_cases hlf : b = Byte.lf
    · exact ⟨[], by simp [Scanner.read, Cgi.tailScanner, hlf], by simp⟩
    · obtain ⟨u, hu, hno⟩ := ih
      have next (h : (Cgi.tailScanner uriMode).byte () b = .next ()) :
          ∃ u, b :: l = u ++ ((Cgi.tailScanner uriMode).read () (b :: l)).2.2 ∧ Byte.lf ∉ u := by
        refine ⟨b :: u, ?_, by simp [hno, Ne.symm hlf]⟩
        have hread : (Cgi.tailScanner uriMode).read () (b :: l) =
            (Cgi.tailScanner uriMode).read () l := by
          simp only [Scanner.read, h]
          rfl
        rw [hread, List.cons_append, ← hu]
      cases uriMode with
      | false => exact next (by simp [Cgi.tailScanner, hlf])
      | true =>
        by_cases hcr : b = Byte.cr
        · exact ⟨[b], by simp [Scanner.read, Cgi.tailScanner, hcr, Byte.cr,
            Byte.lf], by simpa using Ne.symm hlf⟩
        · cases hb : Byte.isHws b with
          | true => exact ⟨[], by simp [Scanner.read, Cgi.tailScanner, hlf, hcr, hb], by simp⟩
          | false => exact next (by simp [Cgi.tailScanner, hlf, hcr, hb])

theorem read_gobble (l : Str) : match gobbleCrlf.read false l with
    | (.ok, need, l') => need = false ∧ (l = Byte.lf :: l' ∨ l = Byte.cr :: Byte.lf :: l')
    | (.nomatch, need, l') => need = false ∧ l' = l
    | _ => True := by
  cases l with
  | nil => trivial
  | cons b l =>
    by_cases hlf : b = Byte.lf
    · simp [Scanner.read, gobbleCrlf, hlf]
    · by_cases hcr : b = Byte.cr
      · subst hcr
        cases l with
        | nil => trivial
        | cons c l =>
          by_cases hc : c = Byte.lf
          · simp [Scanner.read, gobbleCrlf, hc, Byte.cr, Byte.lf]
          · by_cases hc' : c = Byte.cr
            · simp [Scanner.read, gobbleCrlf, hc', Byte.cr, Byte.lf]
            · simp [Scanner.read, gobbleCrlf, hc, hc', show Byte.cr ≠ Byte.lf by decide]
      · simp [Scanner.read, gobbleCrlf, hlf, hcr]

theorem read_delim {mark : UInt8 → Mark} (word : Bool) {f : UInt8 → UInt8}
    (hput : ∀ b c, mark b = .put c → c = f b) (s : Scratch) (l : Str) :
    match (delimScanner mark word).read s l with
    | (.ok w, s', l') =>
      s'.text = [] ∧ ∃ u, w = s.text ++ u.map f ∧ (∀ b ∈ u, mark b = .put (f b)) ∧
        ((∃ b, l = u ++ b :: l' ∧ mark b = .stop true) ∨
          (l = u ++ l' ∧ ((word = true ∧ l' = []) ∨ ∃ b, l'.head? = some b ∧ mark b = .stop false)))
    | (.error e, _, _) => e ≠ .ok := by
  induction l generalizing s with
  | nil =>
    simp only [Scanner.read, delimScanner]
    by_cases hfull : s.cap ≤ s.text.length
    · simp [hfull]
    · simp only [hfull, if_false]
      by_cases hw : word ∧ s.text ≠ []
      · simp only [hw, ne_eq, not_false_eq_true, and_self, if_true]
        exact ⟨trivial, [], by simp, by simp, .inr ⟨rfl, .inl trivial⟩⟩
      · simp [hw]
  | cons b l ih =>
    by_cases hfull : s.cap ≤ s.text.length
    · simp [Scanner.read, delimScanner, hfull]
    · cases hm : mark b with
      | put c =>
        obtain rfl := hput b c hm
        have hread : (delimScanner mark word).read s (b :: l) =
            (delimScanner mark word).read { s with text := s.text ++ [f b] } l := by
          simp [Scanner.read, delimScanner, hfull, hm]
        have hrec := ih { s with text := s.text ++ [f b] }
        rw [hread]
        split
        · next w s' l' h =>
          rw [h] at hrec
          obtain ⟨htext, u, hw, hall, hend⟩ := hrec
          refine ⟨htext, b :: u, by simp [hw], ?_, ?_⟩
          · simpa [hm] using hall
          · obtain ⟨c, hl, hc⟩ | ⟨hl, hc⟩ := hend
            · exact .inl ⟨c, by simp [hl], hc⟩
            · exact .inr ⟨by simp [← hl], hc⟩
        · next e _ _ h =>
          rw [h] at hrec
          exact hrec
      | stop g =>
        cases g with
        | true =>
          simp only [Scanner.read, delimScanner, hfull, if_false, hm]
          exact ⟨trivial, [], by simp, by simp, .inl ⟨b, rfl, hm⟩⟩
        | false =>
          simp only [Scanner.read, delimScanner, hfull, if_false, hm]
          exact ⟨trivial, [], by simp, by simp, .inr ⟨rfl, .inr ⟨b, rfl, hm⟩⟩⟩
      | fail g => cases g <;> simp [Scanner.read, delimScanner, hfull, hm]

end Reads

end Okws
