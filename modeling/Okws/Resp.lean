import Mathlib
import Okws.Byte

namespace Okws

/-- `http_hdr_field_t`. -/
structure HdrField where
  name : Str
  val : Str
  canDuplicate : Bool := false
  deriving DecidableEq

/-- `strchr`, for a character other than NUL. -/
def strchr (s : Str) (c : UInt8) : Bool := (cstr s).contains c

namespace HdrField

/-- The test that drops a field whose name or value has a newline in it. -/
def printable (f : HdrField) : Bool :=
  !strchr f.name Byte.cr && !strchr f.name Byte.lf && !strchr f.val Byte.cr && !strchr f.val Byte.lf

def line (f : HdrField) : Str := f.name ++ ascii [':', ' '] ++ f.val ++ crlf

end HdrField

/-- The members of `http_resp_header_t` and its attributes that `fill_strbuf` reads. -/
structure RespHeader where
  status : Nat
  version : Nat
  fields : List HdrField
  cleanme : Bool

namespace RespHeader

def statusLine (h : RespHeader) : Str :=
  ascii ['H', 'T', 'T', 'P', '/'] ++
  (match h.version with
    | 1 => ascii ['1', '.', '1', ' ']
    | _ => ascii ['1', '.', '0', ' ']) ++
  ascii (Nat.toDigits 10 h.status) ++
  (if h.status = 200 then ascii [' ', 'O', 'K'] else []) ++ crlf

section

-- `mytolower` belongs to the library under this one
variable (mytolower : Str → Str)

/-- The backward loop that fills `output_me`, with the names in `winner_hsh`. -/
def outputMe : List HdrField → List Bool × List Str
  | [] => ([], [])
  | f :: fs =>
    let (out, winners) := outputMe fs
    if f.canDuplicate then (true :: out, winners)
    else
      let n := mytolower f.name
      if n ∈ winners then (false :: out, winners) else (true :: out, n :: winners)

/-- The forward loop; without `cleanme`, `output_me` is not looked at. -/
def writeFields (cleanme : Bool) : List HdrField → List Bool → Str
  | f :: fs, o :: out =>
    (if (!cleanme || o) && f.printable then f.line else []) ++ writeFields cleanme fs out
  | f :: fs, [] =>
    (if !cleanme && f.printable then f.line else []) ++ writeFields cleanme fs []
  | [], _ => []

def fillStrbuf (h : RespHeader) : Str :=
  h.statusLine ++
    writeFields h.cleanme h.fields (if h.cleanme then (outputMe mytolower h.fields).1
      else []) ++ crlf

end

/-- `f` and `g` are the same header, in the sense of the standard. -/
def SameName (f g : HdrField) : Prop := f.name.map Byte.toLower = g.name.map Byte.toLower

instance (f g : HdrField) : Decidable (SameName f g) := inferInstanceAs (Decidable (_ = _))

/-- `f` gives way to one of the fields behind it. -/
def Loses (f : HdrField) (fs : List HdrField) : Prop :=
  f.canDuplicate = false ∧ ∃ g ∈ fs, g.canDuplicate = false ∧ SameName g f

instance (f : HdrField) (fs : List HdrField) : Decidable (Loses f fs) :=
  inferInstanceAs (Decidable (_ ∧ _))

def lastWins : List HdrField → List HdrField
  | [] => []
  | f :: fs => if Loses f fs then lastWins fs else f :: lastWins fs

def kept (h : RespHeader) : List HdrField := if h.cleanme then lastWins h.fields else h.fields

def emitted (h : RespHeader) : List HdrField := h.kept.filter HdrField.printable

attribute [local simp] outputMe writeFields lastWins

theorem lastWins_sublist (fs : List HdrField) : (lastWins fs).Sublist fs := by
  induction fs with
  | nil => exact .slnil
  | cons f fs ih =>
    rw [lastWins]
    split
    · exact ih.cons f
    · exact ih.cons_cons f

theorem lastWins_duplicable (fs : List HdrField) :
    (lastWins fs).filter (·.canDuplicate) = fs.filter (·.canDuplicate) := by
  induction fs with
  | nil => rfl
  | cons f fs ih =>
    rw [lastWins]
    split
    · next hl => rw [ih, List.filter_cons_of_neg (by simp [hl.1])]
    · rw [List.filter_cons, List.filter_cons, ih]

theorem lastWins_last {fs : List HdrField} {f : HdrField} (hf : f ∈ lastWins fs)
    (hd : f.canDuplicate = false) :
    (fs.filter fun g => !g.canDuplicate && SameName g f).getLast? = some f := by
  induction fs with
  | nil => simp at hf
  | cons g fs ih =>
    have hcons : f ∈ lastWins fs →
        ((g :: fs).filter fun x => !x.canDuplicate && SameName x f).getLast? =
        some f := by
      intro hf
      have := ih hf
      rw [List.filter_cons]
      split
      · rw [List.getLast?_cons, this]
        rfl
      · exact this
    rw [lastWins] at hf
    split at hf
    · exact hcons hf
    · next hw =>
      obtain rfl | hf := List.mem_cons.1 hf
      · have hnil : fs.filter (fun x => !x.canDuplicate && SameName x f) = [] := by
          rw [List.filter_eq_nil_iff]
          intro x hx hxf
          simp only [Bool.and_eq_true, Bool.not_eq_true', decide_eq_true_eq] at hxf
          exact hw ⟨hd, x, hx, hxf⟩
        rw [List.filter_cons_of_pos (by simp [hd, SameName]), hnil]
        rfl
      · exact hcons hf

theorem lastWins_once (fs : List HdrField) :
    (lastWins fs).Pairwise fun f g =>
      f.canDuplicate = false → g.canDuplicate = false → ¬ SameName g f := by
  induction fs with
  | nil => exact .nil
  | cons f fs ih =>
    rw [lastWins]
    split
    · exact ih
    · next hl =>
      refine .cons (fun g hg hf hg' hn => hl ⟨hf, g, ?_, hg', hn⟩) ih
      exact (lastWins_sublist fs).subset hg

section

variable {mytolower : Str → Str} (hlower : ∀ s, mytolower s = s.map Byte.toLower)

include hlower

theorem mem_winners (fs : List HdrField) (n : Str) :
    n ∈ (outputMe mytolower fs).2 ↔ ∃ g ∈ fs, g.canDuplicate = false ∧
      g.name.map Byte.toLower = n := by
  induction fs generalizing n with
  | nil => simp
  | cons f fs ih =>
    rw [outputMe]
    cases hd : f.canDuplicate with
    | true => simp [hd, ih]
    | false =>
      simp only [Bool.false_eq_true, if_false, hlower]
      split
      · next hw =>
        rw [ih] at hw
        simp only [ih, List.mem_cons, exists_eq_or_imp, hd, true_and]
        exact ⟨.inr, fun h => h.elim (fun h => h ▸ hw) id⟩
      · simp only [List.mem_cons, exists_eq_or_imp, hd, true_and, ih]
        exact or_congr_left eq_comm

theorem writeFields_clean (fs : List HdrField) :
    writeFields true fs (outputMe mytolower fs).1 =
      ((lastWins fs).filter HdrField.printable).flatMap HdrField.line := by
  induction fs with
  | nil => rfl
  | cons f fs ih =>
    have hw := mem_winners hlower fs (f.name.map Byte.toLower)
    rw [outputMe, lastWins]
    cases hd : f.canDuplicate with
    | true =>
      have hl : ¬ Loses f fs := fun h => by simp [Loses, hd] at h
      simp only [if_true, hl, if_false, writeFields, ih]
      cases hp : f.printable <;> simp [hp]
    | false =>
      simp only [Bool.false_eq_true, if_false, hlower]
      have hiff : Loses f fs ↔ f.name.map Byte.toLower ∈ (outputMe mytolower fs).2 := by
        rw [hw]
        simp [Loses, hd, SameName]
      by_cases hl : Loses f fs
      · simp only [hl, hiff.1 hl, if_true, writeFields, ih]
        simp
      · simp only [hl, mt hiff.2 hl, if_false, writeFields, ih]
        cases hp : f.printable <;> simp [hp]

omit hlower in
theorem writeFields_all (fs : List HdrField) :
    writeFields false fs [] = (fs.filter HdrField.printable).flatMap HdrField.line := by
  induction fs with
  | nil => rfl
  | cons f fs ih =>
    simp only [writeFields, ih]
    cases hp : f.printable <;> simp [hp]

theorem fillStrbuf_eq (h : RespHeader) :
    fillStrbuf mytolower h = h.statusLine ++ h.emitted.flatMap HdrField.line ++ crlf := by
  unfold fillStrbuf emitted kept
  cases h.cleanme with
  | true => simp [writeFields_clean hlower]
  | false => simp [writeFields_all]

end

/-- No byte of `s` ends a line. -/
def EolFree (s : Str) : Prop := ∀ b ∈ s, Byte.isEol b = false

instance (s : Str) : Decidable (EolFree s) := inferInstanceAs (Decidable (∀ b ∈ s, _))

/-- What a function on C strings does not see of `s`. -/
def nulTail (s : Str) : Str := s.dropWhile (· ≠ 0)

theorem eolFree_iff (s : Str) : EolFree s ↔ EolFree (cstr s) ∧ EolFree (nulTail s) := by
  have h : cstr s ++ nulTail s = s := List.takeWhile_append_dropWhile
  constructor
  · intro hs
    constructor
    · exact fun b hb => hs b (h ▸ List.mem_append_left _ hb)
    · exact fun b hb => hs b (h ▸ List.mem_append_right _ hb)
  · rintro ⟨h₁, h₂⟩ b hb
    rw [← h] at hb
    exact (List.mem_append.1 hb).elim (h₁ b) (h₂ b)

theorem strchr_eol (s : Str) :
    (!strchr s Byte.cr && !strchr s Byte.lf) = true ↔ EolFree (cstr s) := by
  simp only [strchr, EolFree, Byte.isEol, Bool.and_eq_true, Bool.not_eq_true',
    List.contains_eq_mem, decide_eq_false_iff_not, Bool.or_eq_false_iff, beq_eq_false_iff_ne]
  exact ⟨fun h b hb => ⟨fun he => h.1 (he ▸ hb), fun he => h.2 (he ▸ hb)⟩,
    fun h => ⟨fun hb => (h _ hb).1 rfl, fun hb => (h _ hb).2 rfl⟩⟩

theorem printable_iff (f : HdrField) :
    f.printable = true ↔ EolFree (cstr f.name) ∧ EolFree (cstr f.val) := by
  rw [← strchr_eol, ← strchr_eol, HdrField.printable, ← Bool.and_eq_true, Bool.and_assoc,
    Bool.and_assoc]

/-- The status line, a line for each field that is written and an empty line; of the fields
that may not be repeated the last one of each name, in order. -/
structure Unsplit (h : RespHeader) (out : Str) : Prop where
  shape : out = h.statusLine ++ h.emitted.flatMap HdrField.line ++ crlf
  clean : ∀ f ∈ h.emitted, EolFree f.name ∧ EolFree f.val
  order : h.emitted.Sublist h.fields
  last : h.cleanme = true → ∀ f ∈ h.emitted, f.canDuplicate = false →
    (h.fields.filter fun g => !g.canDuplicate && SameName g f).getLast? = some f
  once : h.cleanme = true → h.emitted.Pairwise fun f g =>
    f.canDuplicate = false → g.canDuplicate = false → ¬ SameName g f
  duplicable : h.cleanme = true → h.emitted.filter (·.canDuplicate) =
    (h.fields.filter (·.canDuplicate)).filter HdrField.printable

theorem clean_iff (h : RespHeader) :
    (∀ f ∈ h.emitted, EolFree f.name ∧ EolFree f.val) ↔
      ∀ f ∈ h.kept, f.printable = true → EolFree (nulTail f.name) ∧ EolFree (nulTail f.val) := by
  simp only [emitted, List.mem_filter, and_imp]
  refine forall₃_congr fun f _ hp => ?_
  obtain ⟨hn, hv⟩ := (printable_iff f).1 hp
  rw [eolFree_iff f.name, eolFree_iff f.val]
  simp [hn, hv]

/-- The output cannot be split exactly when no field hides a line end behind a NUL. -/
theorem fillStrbuf_unsplit (mytolower : Str → Str) (hlower : ∀ s, mytolower s = s.map Byte.toLower)
    (h : RespHeader) :
    h.Unsplit (fillStrbuf mytolower h) ↔
      ∀ f ∈ h.kept, f.printable = true → EolFree (nulTail f.name) ∧ EolFree (nulTail f.val) := by
  rw [← clean_iff]
  refine ⟨fun hu => hu.clean, fun hc => ?_⟩
  have hsub : h.kept.Sublist h.fields := by
    unfold kept
    split
    · exact lastWins_sublist _
    · exact List.Sublist.refl _
  have hkept : h.cleanme = true → h.kept = lastWins h.fields := fun hcl => if_pos hcl
  refine ⟨fillStrbuf_eq hlower h, hc, List.filter_sublist.trans hsub, ?_, ?_, ?_⟩
  · intro hcl f hf hd
    rw [emitted, hkept hcl] at hf
    exact lastWins_last (List.mem_filter.1 hf).1 hd
  · intro hcl
    rw [emitted, hkept hcl]
    exact (lastWins_once _).sublist List.filter_sublist
  · intro hcl
    rw [emitted, hkept hcl, List.filter_filter, ← lastWins_duplicable, List.filter_filter]
    exact List.filter_congr fun f _ => Bool.and_comm ..

/-- Two cookies are kept, the first of two types is not, and a value with a newline is dropped. -/
theorem fillStrbuf_unsplit_cookies :
    (RespHeader.mk 200 1 [⟨[65], [49], false⟩, ⟨[67], [50], true⟩, ⟨[97], [51], false⟩,
        ⟨[67], [13, 10], true⟩, ⟨[67], [52, 0, 53], true⟩] true).Unsplit
      (fillStrbuf (List.map Byte.toLower)
        (RespHeader.mk 200 1 [⟨[65], [49], false⟩, ⟨[67], [50], true⟩,
        ⟨[97], [51], false⟩, ⟨[67], [13, 10], true⟩, ⟨[67], [52, 0, 53], true⟩] true)) :=
  (fillStrbuf_unsplit (List.map Byte.toLower) (fun _ => rfl) _).2 (by decide +kernel)

/-- The field `A: a` followed by NUL, a line end and `X: y` makes two lines. -/
theorem fillStrbuf_split :
    fillStrbuf (List.map Byte.toLower)
        ⟨404, 0, [⟨[65], [97, 0, 13, 10, 88, 58, 32, 121], false⟩], false⟩ =
      ascii ['H', 'T', 'T', 'P', '/', '1', '.', '0', ' ', '4', '0', '4'] ++ crlf ++
        (ascii ['A', ':', ' ', 'a'] ++ [0]) ++ crlf ++ ascii ['X', ':', ' ', 'y'] ++ crlf ++ crlf ∧
    ¬ (RespHeader.mk 404 0 [⟨[65], [97, 0, 13, 10, 88, 58, 32, 121], false⟩] false).Unsplit
      (fillStrbuf (List.map Byte.toLower)
        ⟨404, 0, [⟨[65], [97, 0, 13, 10, 88, 58, 32, 121], false⟩], false⟩) := by
  refine ⟨by decide, fun hu => ?_⟩
  exact absurd hu.clean (by decide +kernel)

end RespHeader

end Okws
