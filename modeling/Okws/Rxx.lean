import Okws.Byte

namespace Okws.Rxx

/-- What a match leaves in the `rxx`: where the whole of it lies in the text that was searched, and
where each group does; `none` is a group that did not take part. -/
structure Match where
  whole : Nat × Nat
  groups : List (Option (Nat × Nat))
  deriving DecidableEq

def Match.spans (m : Match) : List (Option (Nat × Nat)) := some m.whole :: m.groups

inductive Exec
  | failed
  | noMatch
  | found (m : Match)

/-- The engine: what it finds lies in the text, and the last group it reports took part. -/
structure Engine where
  exec : Str → Exec
  within : ∀ s m, exec s = .found m → ∀ a b, some (a, b) ∈ m.spans → a ≤ b ∧ b ≤ s.length
  last : ∀ s m, exec s = .found m → m.groups.getLast? ≠ some none

/-- The matches that a loop made, each with the place from which it searched, where it stopped, and
whether the engine failed there. -/
structure Walk where
  found : List (Nat × Match) := []
  stop : Nat
  failed : Bool := false
  deriving DecidableEq

section Loops

variable (E : Engine) (s : Str)

/-- The loop of the three functions, for at most so many rounds.  It goes on behind the match, but
by one byte at least. -/
def walk : Nat → Nat → Walk
  | 0, p => { stop := p }
  | n + 1, p =>
    if p < s.length then
      match E.exec (s.drop p) with
      | .failed => { stop := p, failed := true }
      | .noMatch => { stop := p }
      | .found m =>
        let w := walk n (p + max m.whole.2 1)
        { w with found := (p, m) :: w.found }
    else { stop := p }

/-- The bytes at `g`, counted from `p`. -/
def sub (p : Nat) (g : Nat × Nat) : Str := ((s.drop p).drop g.1).take (g.2 - g.1)

def pre (p : Nat) (m : Match) : Str := (s.drop p).take m.whole.1

def split2 (lim : Nat) (emptylast : Bool) : List Str :=
  let w := walk E s (lim - 1) 0
  let out := w.found.flatMap fun x => [pre s x.1 x.2, sub s x.1 x.2.whole]
  if w.failed then out
  else if lim ≠ 0 ∧ (w.stop < s.length ∨ emptylast) then out ++ [s.drop w.stop] else out

/-- `repl_el_str_t` and `repl_el_capture_t`. -/
inductive ReplEl
  | str (t : Str)
  | capture (i : Nat)
  deriving DecidableEq

def addStr (t : Str) : List ReplEl := if t = [] then [] else [.str t]

def isDigit (c : UInt8) : Bool := 48 ≤ c && c ≤ 57

/-- `repl_t::parse`, with what lies between `last` and `p`. -/
def parse (last : Str) : Str → List ReplEl
  | [] => addStr last
  | [c] => addStr (last ++ [c])
  | c :: d :: r =>
    if c ≠ 36 then parse (last ++ [c]) (d :: r)
    else if d = 36 then addStr last ++ parse [d] r
    else if isDigit d then addStr last ++ ReplEl.capture (d.toNat - 48) :: parse [] r
    else parse (last ++ [c]) (d :: r)

def ReplEl.output (p : Nat) (m : Match) : ReplEl → Str
  | .str t => t
  | .capture i =>
    match m.spans[i]? with
    | some (some g) => if g.1 < g.2 then sub s p g else []
    | _ => []

def post (w : Walk) : Str := if w.stop < s.length then s.drop w.stop else []

/-- `s.length` rounds are as many as there can be. -/
def rxxReplace2 (repl : Str) : Option Str :=
  let w := walk E s s.length 0
  let els := parse [] repl
  if w.failed then none
  else some ((w.found.flatMap fun x =>
    pre s x.1 x.2 ++ els.flatMap (ReplEl.output s x.1 x.2)) ++ post s w)

def extractMatches (p : Nat) : List (Option (Nat × Nat)) → List Str
  | [] => []
  | none :: _ => []
  | some g :: gs => if g.1 < g.2 then sub s p g :: extractMatches p gs else extractMatches p gs

variable {σ : Type} (cb : σ → List Str → Option Str × σ)

/-- The rounds of `rxx_replace`, whose callback may have a state. -/
def callback : List (Nat × Match) → σ → Str × σ
  | [], w => ([], w)
  | (p, m) :: xs, w =>
    let r := cb w (extractMatches s p m.spans)
    let t := callback xs r.2
    (pre s p m ++ r.1.getD [] ++ t.1, t.2)

def rxxReplace (w : σ) : Option Str × σ :=
  let x := walk E s s.length 0
  let r := callback s cb x.found w
  (if x.failed then none else some (r.1 ++ post s x), r.2)

end Loops

/-- A span of a text, and what is put in its place. -/
structure Span where
  start : Nat
  stop : Nat
  text : Str

/-- The text from `pos` on, with the spans replaced and all that lies between them as it was. -/
def substitute (s : Str) (pos : Nat) : List Span → Str
  | [] => s.drop pos
  | x :: xs => (s.take x.start).drop pos ++ x.text ++ substitute s x.stop xs

/-- A replacement: `$0` to `$9` stand for a capture, and `$$` for the dollar sign. -/
def expand (cap : Nat → Str) : Str → Str
  | [] => []
  | [c] => [c]
  | c :: d :: r =>
    if c = 36 ∧ d = 36 then 36 :: expand cap r
    else if c = 36 ∧ isDigit d then cap (d.toNat - 48) ++ expand cap r
    else c :: expand cap (d :: r)

section Spec

variable (E : Engine) (s : Str)

def found : List (Nat × Match) := (walk E s s.length 0).found

def capture (p : Nat) (m : Match) (k : Nat) : Option Str := (m.spans[k]?).join.map (sub s p)

def span (x : (Nat × Match) × Str) : Span :=
  { start := x.1.1 + x.1.2.whole.1, stop := x.1.1 + x.1.2.whole.2, text := x.2 }

/-- The text with something in the place of each match. -/
def replaced (texts : List Str) : Str := substitute s 0 (((found E s).zip texts).map span)

def outputs {σ : Type} (cb : σ → List Str → Option Str × σ) : List (List Str) → σ → List Str
  | [], _ => []
  | v :: vs, w => (cb w v).1.getD [] :: outputs cb vs (cb w v).2

/-- A string of the program, whose length is a `size_t`. -/
structure Text where
  bytes : Str
  short : bytes.length + 1 < 2 ^ 64

structure Keeps (s : Text) : Prop where
  split : (split2 E s.bytes (2 ^ 64 - 1) false).flatten = s.bytes
  replace : ∀ repl, rxxReplace2 E s.bytes repl = some (replaced E s.bytes
    ((found E s.bytes).map fun x => expand (fun k => (capture s.bytes x.1 x.2 k).getD []) repl))
  callback : ∀ (σ : Type) (cb : σ → List Str → Option Str × σ) (w : σ),
    (rxxReplace E s.bytes cb w).1 = some (replaced E s.bytes
      (outputs cb ((found E s.bytes).map fun x => extractMatches s.bytes x.1 x.2.spans) w))
  captures : ∀ x ∈ found E s.bytes, ∀ k t, capture s.bytes x.1 x.2 k = some t →
    (extractMatches s.bytes x.1 x.2.spans)[k]? = some t

/-- The engine does not fail, and wherever it finds a match each group took part and is not empty,
nor is the whole. -/
structure Fine : Prop where
  runs : (walk E s s.length 0).failed = false
  nonempty : ∀ x ∈ found E s, ∀ g ∈ x.2.spans, ∃ a b, g = some (a, b) ∧ a < b

end Spec

section Walk

variable {E : Engine} {s : Str}

theorem walk_of_end {p : Nat} (h : s.length ≤ p) (n : Nat) : walk E s n p = { stop := p } := by
  cases n with
  | zero => rfl
  | succ n => rw [walk, if_neg (by omega)]

theorem walk_enough (n n' p : Nat) (h : s.length ≤ p + n) (h' : s.length ≤ p + n') :
    walk E s n p = walk E s n' p := by
  induction n generalizing n' p with
  | zero =>
    have hend : s.length ≤ p := h
    rw [walk_of_end hend, walk_of_end hend]
  | succ n ih =>
    cases n' with
    | zero =>
      have hend : s.length ≤ p := h'
      rw [walk_of_end hend, walk_of_end hend]
    | succ n' =>
      rw [walk, walk]
      split
      · split
        · rfl
        · rfl
        · rw [ih n' _ (by omega) (by omega)]
      · rfl

/-- The matches follow each other from `p` to `q`. -/
def Trail (s : Str) : Nat → List (Nat × Match) → Nat → Prop
  | p, [], q => p = q ∧ p ≤ s.length
  | p, (p', m) :: xs, q => p' = p ∧ p < s.length ∧ m.whole.1 ≤ m.whole.2 ∧
      p + m.whole.2 ≤ s.length ∧ Trail s (p + max m.whole.2 1) xs q

theorem walk_trail {p : Nat} (n : Nat) (hp : p ≤ s.length) :
    Trail s p (walk E s n p).found (walk E s n p).stop := by
  induction n generalizing p with
  | zero => exact ⟨rfl, hp⟩
  | succ n ih =>
    rw [walk]
    split
    · next hlt =>
      split
      · exact ⟨rfl, hp⟩
      · exact ⟨rfl, hp⟩
      · next m hm =>
        obtain ⟨hab, hb⟩ := E.within _ m hm m.whole.1 m.whole.2 (.head _)
        rw [List.length_drop] at hb
        exact ⟨rfl, hlt, hab, by omega, ih (by omega)⟩
    · exact ⟨rfl, hp⟩

theorem walk_failed {n p : Nat} (h : (walk E s n p).failed = true) :
    (walk E s n p).stop < s.length := by
  induction n generalizing p with
  | zero => cases h
  | succ n ih =>
    rw [walk] at h ⊢
    split at h
    · next hlt =>
      rw [if_pos hlt]
      cases hx : E.exec (s.drop p) with
      | failed => exact hlt
      | noMatch =>
        rw [hx] at h
        cases h
      | found m =>
        rw [hx] at h
        exact ih h
    · cases h

end Walk

section Substitute

variable {s : Str} {p q : Nat} {zs : List ((Nat × Match) × Str)}

/-- What a loop puts together: the text before each match, and something for the match. -/
def built (s : Str) (zs : List ((Nat × Match) × Str)) : Str :=
  zs.flatMap fun z => pre s z.1.1 z.1.2 ++ z.2

def skips (zs : List ((Nat × Match) × Str)) : Nat := zs.countP fun z => z.1.2.whole.2 = 0

theorem pre_eq (s : Str) (p : Nat) (m : Match) :
    (s.take (p + m.whole.1)).drop p = pre s p m := by
  rw [List.drop_take, Nat.add_sub_cancel_left, pre]

theorem length_substitute_succ (h : p < s.length) (ht : Trail s (p + 1) (zs.map Prod.fst) q) :
    (substitute s p (zs.map span)).length = (substitute s (p + 1) (zs.map span)).length + 1 := by
  cases zs with
  | nil =>
    simp only [List.map_nil, substitute, List.length_drop]
    omega
  | cons z zs =>
    obtain ⟨⟨p', m⟩, t⟩ := z
    obtain ⟨rfl, hlt, hab, hb, -⟩ := ht
    simp only [List.map_cons, substitute, span, List.length_append, List.length_drop,
      List.length_take]
    omega

theorem length_built (h : Trail s p (zs.map Prod.fst) q) :
    (built s zs ++ s.drop q).length + skips zs = (substitute s p (zs.map span)).length := by
  induction zs generalizing p with
  | nil =>
    obtain ⟨rfl, -⟩ := h
    rfl
  | cons z zs ih =>
    obtain ⟨⟨p', m⟩, t⟩ := z
    obtain ⟨rfl, hlt, hab, hb, hrest⟩ := h
    have ih := ih hrest
    simp only [List.length_append] at ih
    rw [skips, List.countP_cons, ← skips]
    simp only [built, List.flatMap_cons, List.map_cons, substitute, span, List.length_append,
      pre_eq]
    rw [← built]
    by_cases hz : m.whole.2 = 0
    · rw [hz] at hrest ih ⊢
      have hsucc := length_substitute_succ hlt hrest
      simp only [Nat.zero_max, Nat.add_zero, decide_true, if_true] at ih ⊢
      omega
    · rw [show max m.whole.2 1 = m.whole.2 by omega] at ih
      simp only [hz, decide_false, Bool.false_eq_true, if_false]
      omega

theorem built_eq (h : Trail s p (zs.map Prod.fst) q) (hz : ∀ z ∈ zs, z.1.2.whole.2 ≠ 0) :
    built s zs ++ s.drop q = substitute s p (zs.map span) := by
  induction zs generalizing p with
  | nil =>
    obtain ⟨rfl, -⟩ := h
    rfl
  | cons z zs ih =>
    obtain ⟨⟨p', m⟩, t⟩ := z
    obtain ⟨rfl, hlt, hab, hb, hrest⟩ := h
    have hm := hz _ (.head _)
    rw [show max m.whole.2 1 = m.whole.2 by simp only at hm; omega] at hrest
    have ih := ih hrest fun z hz' => hz z (.tail _ hz')
    simp only [List.map_cons, substitute, span, ← ih, pre_eq, built, List.flatMap_cons,
      List.append_assoc]

theorem built_eq_iff (h : Trail s p (zs.map Prod.fst) q) :
    built s zs ++ s.drop q = substitute s p (zs.map span) ↔ ∀ z ∈ zs, z.1.2.whole.2 ≠ 0 := by
  refine ⟨fun heq => ?_, built_eq h⟩
  have hlen := length_built h
  rw [heq] at hlen
  have hskips : skips zs = 0 := by omega
  intro z hz hzero
  have := List.countP_eq_zero.mp hskips z hz
  simp [hzero] at this

theorem substitute_self (p' : Nat) (h : Trail s p (zs.map Prod.fst) q) (hp : p' ≤ p)
    (hz : ∀ z ∈ zs, z.2 = sub s z.1.1 z.1.2.whole) :
    substitute s p' (zs.map span) = s.drop p' := by
  induction zs generalizing p p' with
  | nil => rfl
  | cons z zs ih =>
    obtain ⟨⟨p₀, m⟩, t⟩ := z
    obtain ⟨rfl, hlt, hab, hb, hrest⟩ := h
    have ht := hz _ (.head _)
    have hrest := ih (p₀ + m.whole.2) hrest (by omega) fun z hz' => hz z (.tail _ hz')
    have hlast : (s.drop (p₀ + m.whole.1)).drop (m.whole.2 - m.whole.1) =
        s.drop (p₀ + m.whole.2) := by
      rw [List.drop_drop]
      congr 1
      omega
    have htake : p' ≤ (s.take (p₀ + m.whole.1)).length := by
      rw [List.length_take]
      omega
    simp only at ht
    simp only [List.map_cons, substitute, span, hrest, ht, sub, List.drop_drop]
    rw [List.append_assoc, ← hlast, List.take_append_drop,
      ← List.drop_append_of_le_length htake, List.take_append_drop]

end Substitute

section Pieces

variable {E : Engine} {s : Str}

theorem parse_output (out : ReplEl → Str) (hstr : ∀ t, out (.str t) = t) (last r : Str) :
    (parse last r).flatMap out = last ++ expand (fun i => out (.capture i)) r := by
  have hadd (t : Str) : (addStr t).flatMap out = t := by
    unfold addStr
    split
    · next ht => rw [ht]; rfl
    · rw [List.flatMap_singleton, hstr]
  fun_induction parse last r with
  | case1 last => rw [hadd, expand, List.append_nil]
  | case2 last c => rw [hadd, expand]
  | case3 last c d r hc ih =>
    rw [ih, expand, if_neg (fun h => hc h.1), if_neg (fun h => hc h.1), List.append_assoc,
      List.singleton_append]
  | case4 last c r hc ih =>
    rw [List.flatMap_append, hadd, ih, expand, if_pos ⟨not_not.mp hc, rfl⟩]
    rfl
  | case5 last c d r hc hd hdig ih =>
    rw [List.flatMap_append, hadd, List.flatMap_cons, ih, expand, if_neg (fun h => hd h.2),
      if_pos ⟨not_not.mp hc, hdig⟩]
    rfl
  | case6 last c d r hc hd hdig ih =>
    rw [ih, expand, if_neg (fun h => hd h.2), if_neg (fun h => hdig h.2), List.append_assoc,
      List.singleton_append]

theorem sub_of_le {p : Nat} {g : Nat × Nat} (h : g.2 ≤ g.1) : sub s p g = [] := by
  rw [sub, Nat.sub_eq_zero_of_le h, List.take_zero]

theorem capture_output (p : Nat) (m : Match) (i : Nat) :
    ReplEl.output s p m (.capture i) = (capture s p m i).getD [] := by
  simp only [ReplEl.output, capture]
  cases m.spans[i]? with
  | none => rfl
  | some g =>
    cases g with
    | none => rfl
    | some g =>
      change (if g.1 < g.2 then sub s p g else []) = sub s p g
      split
      · rfl
      · next hlt => exact (sub_of_le (Nat.not_lt.mp hlt)).symm

theorem parse_match (p : Nat) (m : Match) (repl : Str) :
    (parse [] repl).flatMap (ReplEl.output s p m) =
      expand (fun k => (capture s p m k).getD []) repl := by
  rw [parse_output _ fun _ => rfl, List.nil_append]
  exact congrArg (expand · repl) (funext fun i => capture_output p m i)

theorem extract_nonempty {p : Nat} {gs : List (Option (Nat × Nat))} (hp : p ≤ s.length)
    (hw : ∀ a b, some (a, b) ∈ gs → b ≤ (s.drop p).length) : [] ∉ extractMatches s p gs := by
  induction gs with
  | nil => exact List.not_mem_nil
  | cons g gs ih =>
    cases g with
    | none => exact List.not_mem_nil
    | some g =>
      have ih := ih fun a b hab => hw a b (.tail _ hab)
      rw [extractMatches]
      split
      · next hlt =>
        intro hmem
        rcases List.mem_cons.mp hmem with heq | hmem
        · have hb := hw g.1 g.2 (.head _)
          have hlen := congrArg List.length heq
          simp only [sub, List.length_nil, List.length_take, List.length_drop] at hlen hb
          omega
        · exact ih hmem
      · exact ih

theorem extract_iff {p : Nat} {gs : List (Option (Nat × Nat))} (hp : p ≤ s.length)
    (hw : ∀ a b, some (a, b) ∈ gs → b ≤ (s.drop p).length) (hlast : gs.getLast? ≠ some none) :
    (∀ (k : Nat) (g : Nat × Nat), gs[k]? = some (some g) →
        (extractMatches s p gs)[k]? = some (sub s p g)) ↔
      ∀ g ∈ gs, ∃ a b, g = some (a, b) ∧ a < b := by
  induction gs with
  | nil => exact ⟨fun _ => nofun, fun _ => nofun⟩
  | cons g gs ih =>
    have hw' (a b) (hab : some (a, b) ∈ gs) := hw a b (.tail _ hab)
    have hlast' : gs.getLast? ≠ some none := by
      cases gs with
      | nil => exact nofun
      | cons g' gs => exact List.getLast?_cons_cons ▸ hlast
    have ih := ih hw' hlast'
    cases g with
    | none =>
      refine ⟨fun h => ?_, fun h => ?_⟩
      · cases hgs : gs.getLast? with
        | none =>
          rw [List.getLast?_eq_none_iff] at hgs
          rw [hgs] at hlast
          exact absurd rfl hlast
        | some g =>
          cases g with
          | none => exact absurd hgs hlast'
          | some g =>
            obtain ⟨k, hk⟩ := List.mem_iff_getElem?.mp (List.mem_of_getLast? hgs)
            cases h (k + 1) g hk
      · obtain ⟨a, b, hg, _⟩ := h none (.head _)
        cases hg
    | some g =>
      rw [extractMatches]
      split
      · next hlt =>
        refine ⟨fun h => List.forall_mem_cons.2 ⟨⟨_, _, rfl, hlt⟩, ih.1 fun k g hk => ?_⟩,
          fun h k g' hk => ?_⟩
        · exact h (k + 1) g hk
        · cases k with
          | zero =>
            cases hk
            rfl
          | succ k => exact ih.2 (fun g hg => h g (.tail _ hg)) k g' hk
      · next hlt =>
        refine ⟨fun h => ?_, fun h => ?_⟩
        · have h0 := h 0 g rfl
          rw [sub_of_le (Nat.not_lt.mp hlt)] at h0
          exact absurd (List.mem_of_getElem? h0) (extract_nonempty hp hw')
        · obtain ⟨a, b, hg, hab⟩ := h _ (.head _)
          cases hg
          exact absurd hab hlt

end Pieces

section Keeps

variable {E : Engine} {s : Str}

theorem found_trail (E : Engine) (s : Str) :
    Trail s 0 (found E s) (walk E s s.length 0).stop :=
  walk_trail s.length (Nat.zero_le _)

theorem post_eq (s : Str) (w : Walk) : post s w = s.drop w.stop := by
  unfold post
  split
  · rfl
  · next h => rw [List.drop_eq_nil_of_le (Nat.not_lt.mp h)]

theorem built_map (f : Nat × Match → Str) (xs : List (Nat × Match)) :
    built s (xs.zip (xs.map f)) = xs.flatMap fun x => pre s x.1 x.2 ++ f x := by
  induction xs with
  | nil => rfl
  | cons x xs ih =>
    rw [List.map_cons, List.zip_cons_cons, List.flatMap_cons, ← ih]
    rfl

theorem replaced_iff {texts : List Str} (h : texts.length = (found E s).length) :
    built s ((found E s).zip texts) ++ s.drop (walk E s s.length 0).stop = replaced E s texts ↔
      ∀ x ∈ found E s, x.2.whole.2 ≠ 0 := by
  have hfst : ((found E s).zip texts).map Prod.fst = found E s :=
    List.map_fst_zip (Nat.le_of_eq h.symm)
  rw [replaced, built_eq_iff (hfst.symm ▸ found_trail E s)]
  rw [← List.forall_mem_map (f := Prod.fst) (P := fun x : Nat × Match => x.2.whole.2 ≠ 0), hfst]

theorem replace_iff (repl : Str) :
    rxxReplace2 E s repl = some (replaced E s ((found E s).map fun x =>
      expand (fun k => (capture s x.1 x.2 k).getD []) repl)) ↔
    (walk E s s.length 0).failed = false ∧ ∀ x ∈ found E s, x.2.whole.2 ≠ 0 := by
  have hbuilt : ((walk E s s.length 0).found.flatMap fun x =>
      pre s x.1 x.2 ++ (parse [] repl).flatMap (ReplEl.output s x.1 x.2)) =
      built s ((found E s).zip ((found E s).map fun x =>
        expand (fun k => (capture s x.1 x.2 k).getD []) repl)) := by
    rw [built_map]
    exact congrArg (List.flatMap · _) (funext fun x => by rw [parse_match])
  cases hf : (walk E s s.length 0).failed with
  | true => simp [rxxReplace2, hf]
  | false =>
    simp only [rxxReplace2, hf, Bool.false_eq_true, if_false, true_and, Option.some_inj, hbuilt,
      post_eq]
    exact replaced_iff (List.length_map _)

variable {σ : Type} (cb : σ → List Str → Option Str × σ)

theorem outputs_length (vs : List (List Str)) (w : σ) : (outputs cb vs w).length = vs.length := by
  induction vs generalizing w with
  | nil => rfl
  | cons v vs ih => rw [outputs, List.length_cons, ih, List.length_cons]

theorem callback_eq (xs : List (Nat × Match)) (w : σ) : (callback s cb xs w).1 =
    built s (xs.zip (outputs cb (xs.map fun x => extractMatches s x.1 x.2.spans) w)) := by
  induction xs generalizing w with
  | nil => rfl
  | cons x xs ih =>
    obtain ⟨p, m⟩ := x
    rw [callback]
    simp only [ih]
    rfl

theorem callback_iff (w : σ) : (rxxReplace E s cb w).1 = some (replaced E s
      (outputs cb ((found E s).map fun x => extractMatches s x.1 x.2.spans) w)) ↔
    (walk E s s.length 0).failed = false ∧ ∀ x ∈ found E s, x.2.whole.2 ≠ 0 := by
  cases hf : (walk E s s.length 0).failed with
  | true => simp [rxxReplace, hf]
  | false =>
    simp only [rxxReplace, hf, Bool.false_eq_true, if_false, true_and, Option.some_inj, callback_eq,
      post_eq]
    refine replaced_iff ?_
    rw [outputs_length, List.length_map]
    rfl

/-- The pieces of `split2` are what a loop puts together that puts each match in its own place. -/
theorem pieces_flatten (xs : List (Nat × Match)) :
    (xs.flatMap fun x => [pre s x.1 x.2, sub s x.1 x.2.whole]).flatten =
      built s (xs.zip (xs.map fun x => sub s x.1 x.2.whole)) := by
  rw [built_map]
  induction xs with
  | nil => rfl
  | cons x xs ih =>
    simp only [List.flatMap_cons, List.flatten_append, ih, List.flatten_cons, List.flatten_nil,
      List.append_nil]

theorem own_fst (xs : List (Nat × Match)) :
    (xs.zip (xs.map fun x => sub s x.1 x.2.whole)).map Prod.fst = xs :=
  List.map_fst_zip (Nat.le_of_eq (List.length_map _).symm)

theorem own_trail (E : Engine) (s : Str) :
    Trail s 0 (((found E s).zip ((found E s).map fun x => sub s x.1 x.2.whole)).map Prod.fst)
      (walk E s s.length 0).stop := by
  rw [own_fst]
  exact found_trail E s

theorem substitute_own (E : Engine) (s : Str) : substitute s 0
    (((found E s).zip ((found E s).map fun x => sub s x.1 x.2.whole)).map span) = s := by
  refine substitute_self 0 (own_trail E s) (Nat.le_refl 0) fun z hz => ?_
  rw [← List.map_prod_left_eq_zip] at hz
  obtain ⟨x, _, rfl⟩ := List.mem_map.mp hz
  rfl

theorem split_iff (s : Text) : (split2 E s.bytes (2 ^ 64 - 1) false).flatten = s.bytes ↔
    (walk E s.bytes s.bytes.length 0).failed = false ∧
      ∀ x ∈ found E s.bytes, x.2.whole.2 ≠ 0 := by
  obtain ⟨s, hs⟩ := s
  have hwalk : walk E s (2 ^ 64 - 1 - 1) 0 = walk E s s.length 0 :=
    walk_enough _ _ 0 (by omega) (by omega)
  have hout := pieces_flatten (s := s) (found E s)
  simp only [split2, hwalk]
  cases hf : (walk E s s.length 0).failed with
  | true =>
    have hlen := length_built (own_trail E s)
    have hstop := walk_failed hf
    rw [substitute_own, List.length_append, List.length_drop] at hlen
    refine iff_of_false (fun heq => ?_) (by simp)
    rw [if_pos rfl] at heq
    have hshort := congrArg List.length (hout.symm.trans heq)
    omega
  | false =>
    have hiff := replaced_iff (E := E) (s := s) (List.length_map fun x => sub s x.1 x.2.whole)
    rw [replaced, substitute_own, ← hout, ← post_eq, post] at hiff
    refine Iff.trans ?_ (hiff.trans ⟨fun h => ⟨rfl, h⟩, And.right⟩)
    rw [if_neg Bool.false_ne_true]
    by_cases hlt : (walk E s s.length 0).stop < s.length
    · rw [if_pos ⟨by decide, .inl hlt⟩, if_pos hlt, List.flatten_append, List.flatten_singleton]
      rfl
    · have hno : ¬ (2 ^ 64 - 1 ≠ 0 ∧ ((walk E s s.length 0).stop < s.length ∨ false = true)) := by
        simp [hlt]
      rw [if_neg hno, if_neg hlt, List.append_nil]
      rfl

theorem walk_found {n p : Nat} {x : Nat × Match} (h : x ∈ (walk E s n p).found) :
    x.1 ≤ s.length ∧ E.exec (s.drop x.1) = .found x.2 := by
  induction n generalizing p with
  | zero => cases h
  | succ n ih =>
    rw [walk] at h
    split at h
    · next hlt =>
      cases hx : E.exec (s.drop p) with
      | failed =>
        rw [hx] at h
        cases h
      | noMatch =>
        rw [hx] at h
        cases h
      | found m =>
        rw [hx] at h
        rcases List.mem_cons.mp h with rfl | h
        · exact ⟨Nat.le_of_lt hlt, hx⟩
        · exact ih h
    · cases h

theorem captures_iff {x : Nat × Match} (h : x ∈ found E s) :
    (∀ k t, capture s x.1 x.2 k = some t → (extractMatches s x.1 x.2.spans)[k]? = some t) ↔
      ∀ g ∈ x.2.spans, ∃ a b, g = some (a, b) ∧ a < b := by
  obtain ⟨hp, hx⟩ := walk_found h
  have hlast : x.2.spans.getLast? ≠ some none := by
    have hgroups := E.last _ _ hx
    unfold Match.spans
    cases hg : x.2.groups with
    | nil => exact nofun
    | cons g gs =>
      rw [List.getLast?_cons_cons, ← hg]
      exact hgroups
  rw [← extract_iff hp (fun a b hab => (E.within _ _ hx a b hab).2) hlast]
  refine ⟨fun h k g hg => h k _ ?_, fun h k t ht => ?_⟩
  · rw [capture, hg]
    rfl
  · obtain ⟨g, hg, rfl⟩ := Option.map_eq_some_iff.mp ht
    exact h k g (Option.join_eq_some_iff.mp hg)

/-- A text is kept if and only if the engine does not fail on it, and every group of every match
takes part and is not empty. -/
theorem keeps_iff (E : Engine) (s : Text) : Keeps E s ↔ Fine E s.bytes := by
  constructor
  · intro h
    obtain ⟨hruns, _⟩ := (split_iff s).1 h.split
    exact ⟨hruns, fun x hx => (captures_iff hx).1 (h.captures x hx)⟩
  · intro h
    have hstop (x) (hx : x ∈ found E s.bytes) : x.2.whole.2 ≠ 0 := by
      obtain ⟨a, b, hab, hlt⟩ := h.nonempty x hx _ (.head _)
      rw [Option.some_inj.1 hab]
      exact Nat.ne_zero_of_lt hlt
    exact {
      split := (split_iff s).2 ⟨h.runs, hstop⟩
      replace := fun repl => (replace_iff repl).2 ⟨h.runs, hstop⟩
      callback := fun _ cb w => (callback_iff cb w).2 ⟨h.runs, hstop⟩
      captures := fun x hx => (captures_iff hx).2 (h.nonempty x hx) }

def emptyPattern : Engine where
  exec _ := .found ⟨(0, 0), []⟩
  within _ _ h a b hab := by
    cases h
    cases List.mem_singleton.mp hab
    exact ⟨Nat.le_refl 0, Nat.zero_le _⟩
  last _ _ h := by
    cases h
    exact nofun

/-- The byte behind an empty match is in none of the pieces. -/
theorem not_keeps : ¬ ∀ (E : Engine) (s : Text), Keeps E s := by
  intro h
  have hsplit := (h emptyPattern ⟨[97], by decide⟩).split
  cases ((split_iff ⟨[97], by decide⟩).1 hsplit).2 (0, ⟨(0, 0), []⟩) (.head _) rfl

end Keeps

end Okws.Rxx
