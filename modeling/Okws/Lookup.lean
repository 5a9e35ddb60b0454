import Okws.Scope

namespace Okws.Pub3

open Zbuf Lib

section Insert

variable {α : Type}

theorem lookup_replace (t : List (Str × α)) (k k' : Str) (x : α) :
    (t.map fun c => if c.1 == k then (c.1, x) else c).lookup k' =
      if k' = k then (t.lookup k).map fun _ => x else t.lookup k' := by
  induction t with
  | nil => simp
  | cons c t ih =>
    obtain ⟨n, y⟩ := c
    rw [List.map_cons]
    by_cases hn : n = k
    · subst hn
      by_cases hk : k' = n
      · subst hk
        simp
      · have hk' : (k' == n) = false := by simpa using hk
        rw [if_neg hk] at ih ⊢
        simp only [beq_self_eq_true, if_true, List.lookup_cons, hk', ih]
    · have hn' : (n == k) = false := by simpa using hn
      simp only [hn', Bool.false_eq_true, if_false, List.lookup_cons, ih]
      by_cases hk : k' = k
      · subst hk
        have hk' : (k' == n) = false := by simpa using Ne.symm hn
        simp [hk']
      · simp [hk]

theorem Bindtab.lookup_insert (t : List (Str × α)) (k k' : Str) (x : α) :
    (Bindtab.insert t (k, x)).lookup k' = if k' = k then some x else t.lookup k' := by
  unfold Bindtab.insert
  split
  · next ht =>
    rw [lookup_replace]
    split
    · obtain ⟨c, hc, hk⟩ := List.any_eq_true.mp ht
      have hk : c.1 = k := by simpa using hk
      cases hl : t.lookup k with
      | none =>
        have hne := List.lookup_eq_none_iff.mp hl c hc
        rw [hk, bne_self_eq_false] at hne
        cases hne
      | some y => rfl
    · rfl
  · next ht =>
    rw [List.lookup_append]
    split
    · next hk =>
      subst hk
      have hnone : t.lookup k' = none := by
        rw [List.lookup_eq_none_iff]
        intro c hc
        have hc : ¬ (c.1 == k') = true := fun h => ht (List.any_eq_true.mpr ⟨c, hc, h⟩)
        rw [bne_iff_ne]
        rintro rfl
        exact hc (beq_self_eq_true _)
      rw [hnone, Option.none_or, List.lookup_cons_self]
    · next hk =>
      have hk' : (k' == k) = false := by simpa using hk
      simp [List.lookup_cons, hk']

end Insert

section Search

def LookRel (P : Option Ptr → Option Ptr → Prop) (nm : Str) (t t' : Tab) : Prop :=
  t.lookup nm = none ∧ t'.lookup nm = none ∨
    ∃ x y, t.lookup nm = some x ∧ t'.lookup nm = some y ∧ P x y

variable {h h' : Heap} {nm : Str} {ls : List Layer} {P : Option Ptr → Option Ptr → Prop}

theorem firstOf_rel (hls : ∀ l ∈ ls, ∀ b, l.bindings = some b → ∃ t t', h.tab b = some t ∧
      h'.tab b = some t' ∧ LookRel P nm t t') :
    h.firstOf nm ls = some none ∧ h'.firstOf nm ls = some none ∨
      ∃ l x y, h.firstOf nm ls = some (some (l, x)) ∧ h'.firstOf nm ls = some (some (l, y)) ∧
        P x y := by
  induction ls with
  | nil => exact .inl ⟨rfl, rfl⟩
  | cons l ls ih =>
    have ih := ih fun l hl => hls l (List.mem_cons_of_mem _ hl)
    rw [Heap.firstOf, Heap.firstOf]
    cases hb : l.bindings with
    | none => exact ih
    | some b =>
      obtain ⟨t, t', ht, ht', ⟨hx, hy⟩ | ⟨x, y, hx, hy, hxy⟩⟩ := hls l List.mem_cons_self b hb
      · simp only [ht, ht', Option.bind_eq_bind, Option.bind_some, hx, hy]
        exact ih
      · simp only [ht, ht', Option.bind_eq_bind, Option.bind_some, hx, hy]
        exact .inr ⟨l, x, y, rfl, rfl, hxy⟩

theorem firstOf_mem {l : Layer} {x : Option Ptr} (hf : h.firstOf nm ls = some (some (l, x))) :
    l ∈ ls ∧ ∃ b t, l.bindings = some b ∧ h.tab b = some t ∧ t.lookup nm = some x := by
  induction ls with
  | nil => cases hf
  | cons m ls ih =>
    have hrest (hf : h.firstOf nm ls = some (some (l, x))) : l ∈ m :: ls ∧
        ∃ b t, l.bindings = some b ∧ h.tab b = some t ∧ t.lookup nm = some x :=
      ⟨List.mem_cons_of_mem _ (ih hf).1, (ih hf).2⟩
    rw [Heap.firstOf] at hf
    cases hb : m.bindings with
    | none =>
      rw [hb] at hf
      exact hrest hf
    | some b =>
      rw [hb] at hf
      obtain ⟨t, ht, hf⟩ := Option.bind_eq_some_iff.mp hf
      cases hx : t.lookup nm with
      | none =>
        rw [hx] at hf
        exact hrest hf
      | some y =>
        rw [hx] at hf
        cases hf
        exact ⟨List.mem_cons_self, b, t, hb, ht, hx⟩

theorem firstOf_none (hf : h.firstOf nm ls = some none) :
    ∀ l ∈ ls, ∀ b, l.bindings = some b → ∃ t, h.tab b = some t ∧ t.lookup nm = none := by
  induction ls with
  | nil => exact fun _ hl => nomatch hl
  | cons m ls ih =>
    intro l hl b hb
    rw [Heap.firstOf] at hf
    cases hm : m.bindings with
    | none =>
      rw [hm] at hf
      obtain rfl | hl := List.mem_cons.mp hl
      · rw [hm] at hb
        cases hb
      · exact ih hf l hl b hb
    | some c =>
      rw [hm] at hf
      obtain ⟨t, ht, hf⟩ := Option.bind_eq_some_iff.mp hf
      cases hx : t.lookup nm with
      | some x =>
        rw [hx] at hf
        cases hf
      | none =>
        rw [hx] at hf
        obtain rfl | hl := List.mem_cons.mp hl
        · rw [hm] at hb
          cases hb
          exact ⟨t, ht, hx⟩
        · exact ih hf l hl b hb

theorem firstOf_back {l : Layer} {b : Nat} {t : Tab} {x y : Option Ptr}
    (hls : ∀ l ∈ ls, ∀ b, l.bindings = some b → ∃ t t', h.tab b = some t ∧ h'.tab b = some t' ∧
      (t'.lookup nm = none → t.lookup nm = none))
    (hf : h'.firstOf nm ls = some (some (l, y))) (hb : l.bindings = some b)
    (ht : h.tab b = some t) (hx : t.lookup nm = some x) :
    h.firstOf nm ls = some (some (l, x)) := by
  induction ls with
  | nil => cases hf
  | cons m ls ih =>
    have ih := ih fun l hl => hls l (List.mem_cons_of_mem _ hl)
    rw [Heap.firstOf] at hf ⊢
    cases hm : m.bindings with
    | none =>
      rw [hm] at hf
      exact ih hf
    | some c =>
      rw [hm] at hf
      obtain ⟨t₁, t₂, ht₁, ht₂, hnone⟩ := hls m List.mem_cons_self c hm
      simp only [ht₁, ht₂, Option.bind_eq_bind, Option.bind_some] at hf ⊢
      cases hy : t₂.lookup nm with
      | none =>
        rw [hy] at hf
        rw [hnone hy]
        exact ih hf
      | some z =>
        rw [hy] at hf
        cases hf
        rw [hm] at hb
        cases hb
        rw [ht₁] at ht
        cases ht
        rw [hx]

end Search

section Tables

variable {h h' : Heap} {b d : Nat} {t t' : Tab}

theorem CopiedTab.lookRel (hc : CopiedTab h h' t t') (nm : Str) :
    LookRel (Copied h h') nm t t' :=
  hc.lookup nm

theorem Heap.Valid.tab (hv : h.Valid) (hb : h.tab b = some t) : Tab.Holds h.length t := by
  rw [Heap.tab] at hb
  cases ha : h[b]? with
  | none =>
    rw [ha] at hb
    cases hb
  | some o =>
    rw [ha] at hb
    cases o with
    | dict t st =>
      cases hb
      exact hv b _ ha
    | cowTab o c =>
      cases c with
      | none => exact hv.backing ha hb
      | some c => exact hv.dictTab hb
    | list | cow | lambda | compiled => cases hb

/-- A heap in which the dictionary `d` is ready to be written, and the tables of `h` are copies at
most. -/
structure Ready (h h' : Heap) (d : Nat) (t' : Tab) : Prop where
  frame : ∀ (a : Nat) o, h[a]? = some o → (∀ b c, o ≠ .cowTab b c) → h'[a]? = some o
  dict : h'.dictTab d = some t'
  tables : ∀ b t, h.tab b = some t → ∃ t', h'.tab b = some t' ∧ CopiedTab h h' t t'

theorem Ready.refl (hv : h.Valid) (hd : h.dictTab d = some t) : Ready h h d t :=
  ⟨fun _ _ ha _ => ha, hd, fun _ t hb => ⟨t, hb, .refl (hv.tab hb)⟩⟩

theorem Mutated.dicts (hm : Mutated h h' b d t t') {x : Nat} {t₀ : Tab}
    (hx : h.dictTab x = some t₀) : h'.dictTab x = some t₀ := by
  obtain ⟨st, hx⟩ := Heap.dictTab_eq_some.mp hx
  refine Heap.dictTab_eq_some.mpr ⟨st, ?_⟩
  by_cases hxb : x = b
  · subst hxb
    obtain hs | ⟨_, ho, -⟩ := hm.self _ hx
    · exact hs
    · cases ho
  · exact hm.frame x _ hx hxb

theorem Mutated.ready (hv : h.Valid) (hm : Mutated h h' b d t t') (hb : h.tab b = some t) :
    Ready h h' d t' := by
  refine ⟨fun a o ha ho => ?_, hm.dict, fun c t₀ hc => ?_⟩
  · by_cases hab : a = b
    · subst hab
      obtain hs | ⟨_, rfl, -⟩ := hm.self o ha
      · exact hs
      · exact absurd rfl (ho _ _)
    · exact hm.frame a o ha hab
  by_cases hcb : c = b
  · subst hcb
    rw [hb] at hc
    cases hc
    exact ⟨t', hm.tab, hm.copied⟩
  have hrefl : CopiedTab h h' t₀ t₀ := by
    refine (CopiedTab.refl (hv.tab hc)).imp fun b c hbc => ⟨hbc.1, hbc.2.later hm.cows hm.length⟩
  refine ⟨t₀, ?_, hrefl⟩
  rw [Heap.tab] at hc ⊢
  cases ha : h[c]? with
  | none =>
    rw [ha] at hc
    cases hc
  | some o =>
    rw [hm.frame c o ha hcb]
    rw [ha] at hc
    cases o with
    | dict t st => exact hc
    | cowTab o k =>
      cases k with
      | none =>
        cases o with
        | tab t => exact hc
        | dict x => exact hm.dicts hc
      | some k => exact hm.dicts hc
    | list | cow | lambda | compiled => cases hc

def Heap.write (h : Heap) (d : Nat) (nm : Str) (v : Ptr) (t : Tab) (st : Option Bool) : Heap :=
  h.set d (.dict (Bindtab.insert t (nm, some v)) st)

variable {st : Option Bool} (nm : Str) (v : Ptr)

theorem write_copied (hd : h'[d]? = some (.dict t' st))
    {x y : Option Ptr} (hc : Copied h h' x y) : Copied h (h'.write d nm v t' st) x y :=
  hc.later (.set hd (fun _ _ h => nomatch h) fun _ _ h => nomatch h) (by
    rw [Heap.write, List.length_set])

theorem Ready.write_tab (hr : Ready h h' d t') (hd : h'[d]? = some (.dict t' st))
    (hb : h.tab b = some t) : ∃ t₂, (h'.write d nm v t' st).tab b = some t₂ ∧
      (∀ m ≠ nm, LookRel (Copied h (h'.write d nm v t' st)) m t t₂) ∧
      (t₂.lookup nm = some (some v) ∧ h'.tab b = some t' ∨
        LookRel (Copied h (h'.write d nm v t' st)) nm t t₂) := by
  obtain ⟨t₁, ht₁, hc⟩ := hr.tables b t hb
  have hlook (m : Str) : LookRel (Copied h (h'.write d nm v t' st)) m t t₁ := by
    obtain hn | ⟨x, y, hx, hy, hxy⟩ := hc.lookRel m
    · exact .inl hn
    · exact .inr ⟨x, y, hx, hy, write_copied nm v hd hxy⟩
  obtain hs | ⟨ht', hs⟩ := Heap.tab_set (d := d) hd b
  · exact ⟨t₁, hs.trans ht₁, fun m _ => hlook m, .inr (hlook nm)⟩
  · rw [ht'] at ht₁
    cases ht₁
    refine ⟨_, hs, fun m hm => ?_, .inl ⟨?_, ht'⟩⟩
    · rw [LookRel, Bindtab.lookup_insert, if_neg hm]
      exact hlook m
    · rw [Bindtab.lookup_insert, if_pos rfl]

theorem Ready.write_dict (hd : h'[d]? = some (.dict t' st)) :
    (h'.write d nm v t' st).tab d = some (Bindtab.insert t' (nm, some v)) := by
  rw [Heap.write, Heap.tab, List.getElem?_set_self (List.getElem?_eq_some_iff.mp hd).1]

end Tables

section Values

def State.valueOf (s : State) (nm : Str) : Option (Layer × Option Ptr) → Option (Option Ptr)
  | none => some none
  | some (l, x) =>
    if l.typ = .unirefs then
      (s.heap.tab s.universals).map fun t => some ((t.lookup nm).join.getD .null)
    else some (some (x.getD .null))

variable {s t : State} {nm : Str}

theorem mem_visibleFrom {base ls : List Layer} {l : Layer} (hl : l ∈ visibleFrom base ls) :
    l ∈ ls ∨ l ∈ base := by
  induction ls with
  | nil => cases hl
  | cons m ls ih =>
    rw [visibleFrom] at hl
    obtain rfl | hl := List.mem_cons.mp hl
    · exact .inl List.mem_cons_self
    · split at hl
      · exact .inr hl
      · exact (ih hl).imp_left (List.mem_cons_of_mem _)

theorem State.Sound.fits (hs : s.Sound) {l : Layer} (hl : l ∈ s.visible) :
    l.Fits s.heap s.globals := by
  obtain hl | hl := mem_visibleFrom hl
  · exact hs.layers l (List.mem_reverse.mp hl)
  · exact hs.layers l (List.mem_of_mem_take (List.mem_reverse.mp hl))

theorem findLayer_visible (hs : s.Based) (nm : Str) :
    s.findLayer nm (s.stack.length + 1) s.stack.length = s.heap.firstOf nm s.visible := by
  rw [findLayer_eq hs nm le_rfl (Nat.lt_succ_self _), List.take_length]
  rfl

theorem lookupVal_eq (hs : s.Based) (nm : Str) :
    s.lookupVal nm = (s.heap.firstOf nm s.visible).bind (s.valueOf nm) := by
  rw [State.lookupVal, findLayer_visible hs]
  cases s.heap.firstOf nm s.visible with
  | none => rfl
  | some r =>
    obtain _ | ⟨l, x⟩ := r
    · rfl
    · rw [Option.bind_eq_bind, Option.bind_some, Option.bind_some, State.valueOf]
      by_cases hl : l.typ = .unirefs
      · simp only [hl, if_true, State.lookupIn]
        cases s.heap.tab s.universals <;> rfl
      · simp only [hl, if_false]

theorem State.Based.globals_visible (hs : s.Based) :
    (⟨some s.globals, .globals⟩ : Layer) ∈ s.visible := by
  have hbase : (⟨some s.globals, .globals⟩ : Layer) ∈ s.base := by
    refine List.mem_reverse.mpr (List.mem_of_getElem? (i := s.globalFrames) ?_)
    rw [List.getElem?_take_of_lt (Nat.lt_succ_self _)]
    exact hs.base
  have hgo (upper : List Layer) :
      ∀ l ∈ s.base, l ∈ visibleFrom s.base (upper ++ s.base) := by
    intro l hl
    induction upper with
    | nil =>
      rw [List.nil_append, visibleFrom_plain hs.base_plain]
      exact hl
    | cons m upper ih =>
      rw [List.cons_append, visibleFrom]
      refine List.mem_cons_of_mem _ ?_
      split
      · exact hl
      · exact ih
  have hstack : s.stack.reverse = (s.stack.drop (s.globalFrames + 1)).reverse ++ s.base := by
    rw [State.base, ← List.reverse_append, List.take_append_drop]
  rw [State.visible, hstack]
  exact hgo _ _ hbase

theorem State.Sound.tables (hs : s.Sound) :
    ∀ l ∈ s.visible, ∀ b, l.bindings = some b → ∃ t, s.heap.tab b = some t :=
  fun _ hl b hb => Option.isSome_iff_exists.mp ((hs.fits hl).table b hb)

variable {h' : Heap} {d : Nat} {t' : Tab} {st : Option Bool}

theorem State.Based.heap (hs : s.Based) (h : Heap) : State.Based { s with heap := h } :=
  ⟨hs.base, hs.below⟩

theorem lookupVal_write (hs : s.Based) (nm : Str) (u : Heap) :
    ({ s with heap := u } : State).lookupVal nm =
      (u.firstOf nm s.visible).bind (State.valueOf { s with heap := u } nm) :=
  lookupVal_eq (hs.heap u) nm

theorem LookRel.isSome {P : Option Ptr → Option Ptr → Prop} {t t' : Tab}
    (hl : LookRel P nm t t') : t.lookup nm = none ↔ t'.lookup nm = none := by
  obtain ⟨hx, hy⟩ | ⟨x, y, hx, hy, -⟩ := hl
  · rw [hx, hy]
  · rw [hx, hy]
    exact iff_of_false nofun nofun

theorem firstOf_isSome {h : Heap} {ls : List Layer} (nm : Str)
    (hls : ∀ l ∈ ls, ∀ b, l.bindings = some b → ∃ t, h.tab b = some t) :
    ∃ r, h.firstOf nm ls = some r := by
  have hself : ∀ l ∈ ls, ∀ b, l.bindings = some b → ∃ t t', h.tab b = some t ∧
      h.tab b = some t' ∧ LookRel (fun _ _ => True) nm t t' := by
    intro l hl b hb
    obtain ⟨t, ht⟩ := hls l hl b hb
    refine ⟨t, t, ht, ht, ?_⟩
    cases hx : t.lookup nm with
    | none => exact .inl ⟨hx, hx⟩
    | some x => exact .inr ⟨x, x, hx, hx, trivial⟩
  obtain ⟨hf, -⟩ | ⟨l, x, _, hf, -⟩ := firstOf_rel hself
  · exact ⟨_, hf⟩
  · exact ⟨_, hf⟩

theorem firstOf_found {h : Heap} {ls : List Layer} {l : Layer} {b : Nat} {t : Tab}
    (hls : ∀ l ∈ ls, ∀ b, l.bindings = some b → ∃ t, h.tab b = some t) (hl : l ∈ ls)
    (hb : l.bindings = some b) (ht : h.tab b = some t) (hx : t.lookup nm ≠ none) :
    ∃ r, h.firstOf nm ls = some (some r) := by
  obtain ⟨_ | r, hf⟩ := firstOf_isSome nm hls
  · obtain ⟨t₀, ht₀, hnone⟩ := firstOf_none hf l hl b hb
    rw [ht] at ht₀
    cases ht₀
    exact absurd hnone hx
  · exact ⟨r, hf⟩

section Write

variable {v : Ptr}

theorem State.Sound.written (hs : s.Sound) (hr : Ready s.heap h' d t')
    (hd : h'[d]? = some (.dict t' st)) (nm : Str) (v : Ptr) :
    ∀ l ∈ s.visible, ∀ b, l.bindings = some b → ∃ t t₂, s.heap.tab b = some t ∧
      (h'.write d nm v t' st).tab b = some t₂ ∧
      (∀ m ≠ nm, LookRel (Copied s.heap (h'.write d nm v t' st)) m t t₂) ∧
      (t₂.lookup nm = some (some v) ∧ h'.tab b = some t' ∨
        LookRel (Copied s.heap (h'.write d nm v t' st)) nm t t₂) := by
  intro l hl b hb
  obtain ⟨t, ht⟩ := hs.tables l hl b hb
  obtain ⟨t₂, ht₂, hm, hnm⟩ := hr.write_tab nm v hd ht
  exact ⟨t, t₂, ht, ht₂, hm, hnm⟩

theorem State.Sound.written_tables (hs : s.Sound) (hr : Ready s.heap h' d t')
    (hd : h'[d]? = some (.dict t' st)) : ∀ l ∈ s.visible, ∀ b, l.bindings = some b →
      ∃ t, (h'.write d nm v t' st).tab b = some t := by
  intro l hl b hb
  obtain ⟨-, t₂, -, ht₂, -⟩ := hs.written hr hd nm v l hl b hb
  exact ⟨t₂, ht₂⟩

theorem State.Sound.first_written (hs : s.Sound) (hr : Ready s.heap h' d t')
    (hd : h'[d]? = some (.dict t' st)) {l : Layer} {y : Option Ptr}
    (hf : (h'.write d nm v t' st).firstOf nm s.visible = some (some (l, y))) :
    y = some v ∨ ∃ x, s.heap.firstOf nm s.visible = some (some (l, x)) := by
  obtain ⟨hmem, b, t₂, hb, ht₂, hy⟩ := firstOf_mem hf
  obtain ⟨t, t₃, ht, ht₃, -, hnm⟩ := hs.written hr hd nm v l hmem b hb
  rw [ht₂] at ht₃
  cases ht₃
  obtain ⟨hv, -⟩ | hrel := hnm
  · rw [hv] at hy
    cases hy
    exact .inl rfl
  · obtain ⟨x, hx⟩ : ∃ x, t.lookup nm = some x := by
      refine Option.ne_none_iff_exists'.mp fun hnone => ?_
      rw [hrel.isSome.mp hnone] at hy
      cases hy
    refine .inr ⟨x, firstOf_back (fun l hl b hb => ?_) hf hb ht hx⟩
    obtain ⟨t, t₂, ht, ht₂, -, hnm⟩ := hs.written hr hd nm v l hl b hb
    refine ⟨t, t₂, ht, ht₂, fun hnone => ?_⟩
    obtain ⟨hv, -⟩ | hrel := hnm
    · rw [hv] at hnone
      cases hnone
    · exact hrel.isSome.mpr hnone

theorem write_universals (hs : s.Sound) (hr : Ready s.heap s.heap s.universals t')
    (hd : s.heap[s.universals]? = some (.dict t' st)) {l : Layer} {x : Option Ptr}
    (hf : s.heap.firstOf nm s.visible = some (some (l, x))) (hl : l.typ = .unirefs) :
    ({ s with heap := s.heap.write s.universals nm v t' st } : State).lookupVal nm =
      some (some v) := by
  rw [lookupVal_write hs.toBased]
  obtain ⟨hmem, b, t, hb, ht, hx⟩ := firstOf_mem hf
  obtain ⟨t₀, t₂, ht₀, ht₂, -, hnm⟩ := hs.written hr hd nm v l hmem b hb
  have hne : t₂.lookup nm ≠ none := by
    obtain ⟨hv, -⟩ | hrel := hnm
    · rw [hv]
      exact nofun
    · rw [ht] at ht₀
      cases ht₀
      rw [Ne, ← hrel.isSome, hx]
      exact nofun
  obtain ⟨⟨l₂, y⟩, hf₂⟩ := firstOf_found (hs.written_tables hr hd) hmem hb ht₂ hne
  rw [hf₂, Option.bind_some, State.valueOf]
  split
  · rw [Ready.write_dict nm v hd, Option.map_some, Bindtab.lookup_insert, if_pos rfl]
    rfl
  · next hl₂ =>
    obtain rfl | ⟨x₂, hx₂⟩ := hs.first_written hr hd hf₂
    · rfl
    · rw [hf] at hx₂
      cases hx₂
      exact absurd hl hl₂

theorem write_globals (hs : s.Sound) (hr : Ready s.heap s.heap s.globals t')
    (hd : s.heap[s.globals]? = some (.dict t' st)) (hf : s.heap.firstOf nm s.visible = some none) :
    ({ s with heap := s.heap.write s.globals nm v t' st } : State).lookupVal nm =
      some (some v) := by
  rw [lookupVal_write hs.toBased]
  have hne : (Bindtab.insert t' (nm, some v)).lookup nm ≠ none := by
    rw [Bindtab.lookup_insert, if_pos rfl]
    exact nofun
  obtain ⟨⟨l, y⟩, hf₂⟩ := firstOf_found (hs.written_tables hr hd) hs.toBased.globals_visible rfl
    (Ready.write_dict nm v hd) hne
  rw [hf₂, Option.bind_some, State.valueOf]
  obtain rfl | ⟨x, hx⟩ := hs.first_written hr hd hf₂
  · split
    -- a layer of names has another table, which is as it was
    · next hl =>
      obtain ⟨hmem, b, t, hb, ht, hy⟩ := firstOf_mem hf₂
      obtain ⟨hdict, hne⟩ := (hs.fits hmem).unirefs hl b hb
      obtain ⟨t₀, ht₀, hnone⟩ := firstOf_none hf l hmem b hb
      obtain ⟨t₁, st₁, hb₁⟩ := Heap.isDict_iff.mp hdict
      rw [Heap.tab, hb₁] at ht₀
      cases ht₀
      rw [Heap.write, Heap.tab, List.getElem?_set_ne hne.symm, hb₁] at ht
      cases ht
      rw [hnone] at hy
      cases hy
    · rfl
  · rw [hf] at hx
    cases hx

theorem write_found (hs : s.Sound) {l : Layer} {x : Option Ptr} {b : Nat} {t : Tab}
    (hm : Mutated s.heap h' b d t t') (hd : h'[d]? = some (.dict t' st))
    (hf : s.heap.firstOf nm s.visible = some (some (l, x))) (hl : l.typ ≠ .unirefs)
    (hb : l.bindings = some b) (ht : s.heap.tab b = some t) :
    ({ s with heap := h'.write d nm v t' st } : State).lookupVal nm = some (some v) := by
  rw [lookupVal_write hs.toBased]
  have hr := hm.ready hs.valid ht
  obtain ⟨-, b₀, t₀, hb₀, ht₀, hx⟩ := firstOf_mem hf
  rw [hb] at hb₀
  cases hb₀
  rw [ht] at ht₀
  cases ht₀
  -- every table that is written has the name already
  have hrel : ∀ l ∈ s.visible, ∀ b, l.bindings = some b → ∃ t t₂, s.heap.tab b = some t ∧
      (h'.write d nm v t' st).tab b = some t₂ ∧ LookRel (fun _ _ => True) nm t t₂ := by
    intro l hl b hb
    obtain ⟨t₁, t₂, ht₁, ht₂, -, hnm⟩ := hs.written hr hd nm v l hl b hb
    refine ⟨t₁, t₂, ht₁, ht₂, ?_⟩
    obtain ⟨hv, htab⟩ | ⟨hx, hy⟩ | ⟨x, y, hx, hy, -⟩ := hnm
    · obtain ⟨t₃, ht₃, hc⟩ := hr.tables b t₁ ht₁
      rw [htab] at ht₃
      cases ht₃
      obtain ⟨hx', -⟩ | ⟨x, y, hx', hy, -⟩ := hm.copied.lookRel nm
      · rw [hx'] at hx
        cases hx
      · obtain ⟨-, hy'⟩ | ⟨x₁, -, hx₁, -⟩ := hc.lookRel nm
        · rw [hy'] at hy
          cases hy
        · exact .inr ⟨x₁, _, hx₁, hv, trivial⟩
    · exact .inl ⟨hx, hy⟩
    · exact .inr ⟨x, y, hx, hy, trivial⟩
  obtain ⟨hnone, -⟩ | ⟨l₁, x₁, y, hf₁, hf₂, -⟩ := firstOf_rel hrel
  · rw [hf] at hnone
    cases hnone
  · rw [hf] at hf₁
    cases hf₁
    obtain ⟨-, b₂, t₂, hb₂, ht₂, hy⟩ := firstOf_mem hf₂
    rw [hb] at hb₂
    cases hb₂
    rw [Heap.write, hm.backed] at ht₂
    cases ht₂
    rw [Bindtab.lookup_insert, if_pos rfl] at hy
    cases hy
    rw [hf₂, Option.bind_some, State.valueOf, if_neg hl]
    rfl

end Write

end Values

section Resolve

/-- The name has what the binding has that it refers to, with null for nothing; what is assigned to
the binding is what the name has then; and the values of the other names stay, as does every object
but the dictionary of the binding and a table that is copied. -/
def State.Resolves (s : State) (nm : Str) : Prop :=
  ∃ d t x w, lookupRef nm s = some (.dict d nm, t) ∧ s.lookupVal nm = some x ∧
    (Ref.dict d nm).getValue t.heap = some (w, t.heap) ∧
    SameObject s.heap t.heap (some (x.getD .null)) (some (w.getD .null)) ∧
    ∀ v, ∃ u, (Ref.dict d nm).setValue v t.heap = some (true, u) ∧
      ({ t with heap := u } : State).lookupVal nm = some (some v) ∧
      (∀ m ≠ nm, ∃ y z, s.lookupVal m = some y ∧
        ({ t with heap := u } : State).lookupVal m = some z ∧ SameObject s.heap u y z) ∧
      ∀ (a : Nat) o, s.heap[a]? = some o → (∀ b c, o ≠ .cowTab b c) → a ≠ d → u[a]? = some o

def Heap.Has (h : Heap) (nm : Str) (l : Layer) : Prop :=
  ∃ b t, l.bindings = some b ∧ h.tab b = some t ∧ t.lookup nm ≠ none

/-- If the first layer in sight that has the name has a table that is not copied yet, all the values
of the table have copies. -/
def State.Copyable (s : State) (nm : Str) : Prop :=
  ∀ above l below b o t, s.visible = above ++ l :: below → (∀ m ∈ above, ¬ s.heap.Has nm m) →
    s.heap.Has nm l → l.typ ≠ .unirefs → l.bindings = some b →
    s.heap[b]? = some (.cowTab o none) → s.heap.backing o = some t →
    ∀ k p, (k, some p) ∈ t → ¬ s.heap.Emptied p

theorem firstOf_iff {h : Heap} {nm : Str} {ls : List Layer} {l : Layer}
    (hls : ∀ l ∈ ls, ∀ b, l.bindings = some b → ∃ t, h.tab b = some t) :
    (∃ x, h.firstOf nm ls = some (some (l, x))) ↔ ∃ above below, ls = above ++ l :: below ∧
      (∀ m ∈ above, ¬ h.Has nm m) ∧ h.Has nm l := by
  induction ls with
  | nil => exact iff_of_false nofun fun ⟨above, _, heq, _⟩ => by cases above <;> cases heq
  | cons m ls ih =>
    have ih := ih fun l hl => hls l (List.mem_cons_of_mem _ hl)
    by_cases hm : h.Has nm m
    · have hfirst : ∃ x, h.firstOf nm (m :: ls) = some (some (m, x)) := by
        obtain ⟨b, t, hb, ht, hx⟩ := hm
        obtain ⟨x, hx⟩ := Option.ne_none_iff_exists'.mp hx
        refine ⟨x, ?_⟩
        rw [Heap.firstOf]
        simp only [hb, ht, Option.bind_eq_bind, Option.bind_some, hx]
      constructor
      · rintro ⟨x, hx⟩
        obtain ⟨y, hy⟩ := hfirst
        rw [hx] at hy
        cases hy
        exact ⟨[], ls, rfl, List.forall_mem_nil _, hm⟩
      · rintro ⟨_ | ⟨a, above⟩, below, heq, habove, -⟩
        · cases heq
          exact hfirst
        · cases heq
          exact absurd hm (habove m List.mem_cons_self)
    · have hrest : h.firstOf nm (m :: ls) = h.firstOf nm ls := by
        rw [Heap.firstOf]
        cases hb : m.bindings with
        | none => rfl
        | some b =>
          obtain ⟨t, ht⟩ := hls m List.mem_cons_self b hb
          have hnone : t.lookup nm = none := by_contra fun hx => hm ⟨b, t, hb, ht, hx⟩
          simp only [ht, Option.bind_eq_bind, Option.bind_some, hnone]
      rw [hrest, ih]
      constructor
      · rintro ⟨above, below, rfl, habove, hl⟩
        exact ⟨m :: above, below, rfl, List.forall_mem_cons.mpr ⟨hm, habove⟩, hl⟩
      · rintro ⟨_ | ⟨a, above⟩, below, heq, habove, hl⟩
        · cases heq
          exact absurd hl hm
        · cases heq
          exact ⟨above, below, rfl, fun l h => habove l (List.mem_cons_of_mem _ h), hl⟩

variable {s : State} {nm : Str}

theorem lookupRef_eq (hs : s.Based) (nm : Str) : lookupRef nm s =
    match s.heap.firstOf nm s.visible with
    | none => none
    | some none => some (.dict s.globals nm, s)
    | some (some (l, _)) =>
      if l.typ = .unirefs then some (.dict s.universals nm, s)
      else match l.bindings with
        | none => none
        | some b => (mutate b s.heap).map fun r => (.dict r.1 nm, { s with heap := r.2 }) := by
  rw [← findLayer_visible hs]
  show (match s.findLayer nm (s.stack.length + 1) s.stack.length with
    | none => fun _ => none
    | some none => pure (.dict s.globals nm)
    | some (some (l, _)) =>
      if l.typ = .unirefs then pure (.dict s.universals nm)
      else match l.bindings with
        | none => fun _ => none
        | some b => do
          let d ← onHeap (mutate b)
          pure (.dict d nm) : Act Ref) s = _
  obtain _ | _ | ⟨l, x⟩ := s.findLayer nm (s.stack.length + 1) s.stack.length
  · rfl
  · rfl
  · dsimp only
    split
    · rfl
    · cases l.bindings with
      | none => rfl
      | some b =>
        show Option.bind (Option.map _ (mutate b s.heap)) _ = Option.map _ (mutate b s.heap)
        cases mutate b s.heap <;> rfl

theorem write_others (hs : s.Sound) {h' : Heap} {d : Nat} {t' : Tab} {st : Option Bool}
    (hr : Ready s.heap h' d t') (hd : h'[d]? = some (.dict t' st)) (v : Ptr) {m : Str}
    (hm : m ≠ nm) : ∃ y z, s.lookupVal m = some y ∧
      ({ s with heap := h'.write d nm v t' st } : State).lookupVal m = some z ∧
      SameObject s.heap (h'.write d nm v t' st) y z := by
  rw [lookupVal_write hs.toBased m (h'.write d nm v t' st), lookupVal_eq hs.toBased]
  have hgetD {x y : Option Ptr} (hc : Copied s.heap (h'.write d nm v t' st) x y) :
      SameObject s.heap (h'.write d nm v t' st) (some (x.getD .null)) (some (y.getD .null)) := by
    cases x <;> cases y
    · rfl
    · cases hc.same
    · cases hc.same
    · exact hc.same
  obtain ⟨hf, hf'⟩ | ⟨l, x, y, hf, hf', hc⟩ := firstOf_rel fun l hl b hb => by
      obtain ⟨t, t₂, ht, ht₂, hrel, -⟩ := hs.written hr hd nm v l hl b hb
      exact ⟨t, t₂, ht, ht₂, hrel m hm⟩
  · exact ⟨none, none, by rw [hf]; rfl, by rw [hf']; rfl, rfl⟩
  · rw [hf, hf', Option.bind_some, Option.bind_some, State.valueOf, State.valueOf]
    split
    · obtain ⟨t, ht⟩ := Option.isSome_iff_exists.mp hs.universals.isTable
      obtain ⟨t₂, ht₂, hrel, -⟩ := hr.write_tab nm v hd ht
      refine ⟨some ((t.lookup m).join.getD .null), some ((t₂.lookup m).join.getD .null),
        by rw [ht]; rfl, by rw [ht₂]; rfl, ?_⟩
      obtain ⟨hx, hy⟩ | ⟨x, y, hx, hy, hc⟩ := hrel m hm
      · rw [hx, hy]
        rfl
      · rw [hx, hy]
        exact hgetD hc
    · exact ⟨_, _, rfl, rfl, hgetD hc⟩

theorem resolves_of_ready (hs : s.Sound) {h' : Heap} {d : Nat} {t' : Tab} {x : Option Ptr}
    (hr : Ready s.heap h' d t') (href : lookupRef nm s = some (.dict d nm, { s with heap := h' }))
    (hx : s.lookupVal nm = some x)
    (hsame : SameObject s.heap h' (some (x.getD .null)) (some ((t'.lookup nm).join.getD .null)))
    (hwrite : ∀ st, h'[d]? = some (.dict t' st) → ∀ v,
      ({ s with heap := h'.write d nm v t' st } : State).lookupVal nm = some (some v)) :
    s.Resolves nm := by
  obtain ⟨st, hd⟩ := Heap.dictTab_eq_some.mp hr.dict
  have hload : Mem.load d h' = some (.dict t' st, h') := by rw [Mem.load, hd, Option.map_some]
  refine ⟨d, { s with heap := h' }, x, (t'.lookup nm).join, href, hx, ?_, hsame, fun v =>
    ⟨h'.write d nm v t' st, ?_, hwrite st hd v, fun m hm => write_others hs hr hd v hm, ?_⟩⟩
  · show Option.bind (Mem.load d h') _ = _
    rw [hload]
    rfl
  · show Option.bind (Mem.load d h') _ = _
    rw [hload]
    rfl
  · intro a o ha ho had
    rw [Heap.write, List.getElem?_set_ne had.symm]
    exact hr.frame a o ha ho

theorem same_self {h : Heap} {x y : Option Ptr} (hxy : x = y) : SameObject h h x y := by
  rw [hxy, SameObject]

theorem resolves_globals (hs : s.Sound) (hf : s.heap.firstOf nm s.visible = some none) :
    s.Resolves nm := by
  obtain ⟨t, ht⟩ := Option.isSome_iff_exists.mp hs.globals
  have hr := Ready.refl hs.valid ht
  have hnone : t.lookup nm = none := by
    obtain ⟨t₀, ht₀, hnone⟩ := firstOf_none hf _ hs.toBased.globals_visible _ rfl
    obtain ⟨st, hd⟩ := Heap.dictTab_eq_some.mp ht
    rw [Heap.tab, hd] at ht₀
    cases ht₀
    exact hnone
  refine resolves_of_ready hs hr ?_ (x := none) ?_ ?_ fun st hd v => write_globals hs hr hd hf
  · rw [lookupRef_eq hs.toBased, hf]
  · rw [lookupVal_eq hs.toBased, hf]
    rfl
  · rw [hnone]
    exact same_self rfl

theorem resolves_universals (hs : s.Sound) {l : Layer} {x : Option Ptr}
    (hf : s.heap.firstOf nm s.visible = some (some (l, x))) (hl : l.typ = .unirefs) :
    s.Resolves nm := by
  obtain ⟨t, ht⟩ := Option.isSome_iff_exists.mp hs.universals
  have hr := Ready.refl hs.valid ht
  have htab : s.heap.tab s.universals = some t := by
    obtain ⟨st, hd⟩ := Heap.dictTab_eq_some.mp ht
    rw [Heap.tab, hd]
  refine resolves_of_ready hs hr ?_ (x := some ((t.lookup nm).join.getD .null)) ?_ ?_
    fun st hd v => write_universals hs hr hd hf hl
  · rw [lookupRef_eq hs.toBased, hf]
    exact if_pos hl
  · rw [lookupVal_eq hs.toBased, hf, Option.bind_some, State.valueOf, if_pos hl, htab]
    rfl
  · exact same_self rfl

theorem resolves_found (hs : s.Sound) {l : Layer} {x : Option Ptr} {b : Nat} {t : Tab}
    (hf : s.heap.firstOf nm s.visible = some (some (l, x))) (hl : l.typ ≠ .unirefs)
    (hb : l.bindings = some b) (ht : s.heap.tab b = some t) (hx : t.lookup nm = some x)
    (hm : (mutate b s.heap).isSome = true) : s.Resolves nm := by
  obtain ⟨⟨d, h'⟩, hm⟩ := Option.isSome_iff_exists.mp hm
  obtain ⟨t', hmut⟩ := mutate_spec hs.valid ht hm
  have hr := hmut.ready hs.valid ht
  refine resolves_of_ready hs hr ?_ (x := some (x.getD .null)) ?_ ?_
    fun st hd v => write_found hs hmut hd hf hl hb ht
  · rw [lookupRef_eq hs.toBased, hf]
    dsimp only
    rw [if_neg hl, hb]
    show Option.map _ (mutate b s.heap) = _
    rw [hm]
    rfl
  · rw [lookupVal_eq hs.toBased, hf, Option.bind_some, State.valueOf, if_neg hl]
  · obtain ⟨hnone, -⟩ | ⟨x', y, hx', hy, hc⟩ := hmut.copied.lookRel nm
    · rw [hx] at hnone
      cases hnone
    · rw [hx] at hx'
      cases hx'
      rw [hy]
      cases x <;> cases y
      · rfl
      · cases hc.same
      · cases hc.same
      · exact hc.same

theorem resolves_iff (hs : s.Sound) (nm : Str) : s.Resolves nm ↔ s.Copyable nm := by
  obtain ⟨r, hr⟩ := firstOf_isSome nm hs.tables
  have hfirst {above below : List Layer} {l : Layer} (heq : s.visible = above ++ l :: below)
      (habove : ∀ m ∈ above, ¬ s.heap.Has nm m) (hl : s.heap.Has nm l) :
      r.map Prod.fst = some l := by
    obtain ⟨x, hx⟩ := (firstOf_iff hs.tables).mpr ⟨above, below, heq, habove, hl⟩
    rw [hr] at hx
    cases hx
    rfl
  obtain _ | ⟨l, x⟩ := r
  · refine iff_of_true (resolves_globals hs hr) ?_
    intro above l' below b o t heq habove hl'
    cases hfirst heq habove hl'
  obtain ⟨hmem, b, t, hb, ht, hx⟩ := firstOf_mem hr
  by_cases hl : l.typ = .unirefs
  · refine iff_of_true (resolves_universals hs hr hl) ?_
    intro above l' below b o t heq habove hl' hne
    cases hfirst heq habove hl'
    exact absurd hl hne
  have hcopy : s.Copyable nm ↔ (mutate b s.heap).isSome = true := by
    rw [mutate_isSome hs.valid ht]
    constructor
    · intro hc o ho
      obtain ⟨above, below, heq, habove, hl'⟩ := (firstOf_iff hs.tables).mp ⟨x, hr⟩
      refine hc above l below b o t heq habove hl' hl hb ho ?_
      rw [Heap.tab, ho] at ht
      exact ht
    · intro hall above l' below b' o t' heq habove hl' hne hb' ho hbacking
      cases hfirst heq habove hl'
      rw [hb] at hb'
      cases hb'
      rw [Heap.tab, ho] at ht
      rw [show s.heap.backing o = some t from ht] at hbacking
      cases hbacking
      exact hall o ho
  rw [hcopy]
  refine ⟨fun hres => ?_, resolves_found hs hr hl hb ht hx⟩
  obtain ⟨d, t', _, _, href, -⟩ := hres
  rw [lookupRef_eq hs.toBased, hr] at href
  dsimp only at href
  rw [if_neg hl, hb] at href
  change Option.map _ (mutate b s.heap) = _ at href
  obtain ⟨r, hm, -⟩ := Option.map_eq_some_iff.mp href
  rw [hm, Option.isSome_some]

end Resolve

section Reachable

/-- The heap of `d = {r : r/abc/}` where a file is included with `d`, with what has become of the
value of `r`. -/
def regexHeap (r : Obj) : Heap :=
  [.dict [] none, .dict [(text "d", some (.obj 3))] none, r,
    .dict [(text "r", some (.obj 2))] none, .cowTab (.dict 3) none]

/-- `d.r[0] = 1` asks for a list. -/
example : toDict (.obj 2) (regexHeap (.cow none (some (.node (.regex (text "abc") []))))) =
    some (none, regexHeap (.cow none none)) := rfl

def regexScope : Scope where
  state := {
    heap := regexHeap (.cow none none)
    universals := 0
    globals := 1
    stack := [⟨some 0, .universals⟩, ⟨some 1, .globals⟩, ⟨some 4, .localsBarrierWeak⟩]
    globalFrames := 1
    md := [] }
  closures := []

theorem regexHeap_valid : (regexHeap (.cow none none)).Valid := by
  intro a o ha
  match a with
  | 0 =>
    cases ha
    exact fun _ _ hp => nomatch hp
  | 1 | 3 =>
    cases ha
    intro k p hp b hb
    cases List.mem_singleton.mp hp
    cases hb
    decide
  | 2 =>
    cases ha
    exact .inl rfl
  | 4 =>
    cases ha
    trivial
  | _ + 5 => cases ha

def regexCaller : Scope :=
  { regexScope with state := { regexScope.state with
    stack := [⟨some 0, .universals⟩, ⟨some 1, .globals⟩] } }

theorem reach_regexCaller : Scope.system.Reach Scope.Promised regexCaller := by
  let start : State :=
    { heap := [.dict [] none], universals := 0, globals := 0, stack := [], globalFrames := 0,
      md := [] }
  have hstart : start.heap.Valid := by
    intro a o ha
    match a with
    | 0 =>
      cases ha
      exact fun _ _ hp => nomatch hp
    | _ + 1 => cases ha
  let made : State := { regexCaller.state with heap := [.dict [] none, .dict [] none] }
  have hmade : Scope.system.Reach Scope.Promised ⟨made, []⟩ :=
    .init ⟨rfl, start, [], 0, none, hstart, ⟨List.forall_mem_nil _, rfl, fun _ hg => nomatch hg⟩,
      rfl⟩
  have hevolves : made.heap.Evolves (regexHeap (.cow none none)) := by
    refine ⟨fun d hd => ?_, fun b o c hb => ?_⟩
    · match d with
      | 0 => rfl
      | 1 => rfl
      | _ + 2 => cases hd
    · match b with
      | 0 => cases hb
      | 1 => cases hb
      | _ + 2 => cases hb
  exact hmade.step (e := Scope.Event.evaluate regexCaller.state) ⟨hevolves, regexHeap_valid⟩ rfl

theorem reach_regexScope : Scope.system.Reach Scope.Promised regexScope := by
  have htable : regexCaller.state.heap.IsTable 4 ∧ LayerType.localsBarrierWeak ≠ .unirefs :=
    ⟨rfl, by decide⟩
  exact reach_regexCaller.step (e := Scope.Event.pushLocals 4 .localsBarrierWeak) htable rfl

/-- A name is read where it is assigned, unless the table that has it is still to be copied and has
a value without a copy. -/
theorem Scope.reads_assigned {s : Scope} (hr : Scope.system.Reach Scope.Promised s) (nm : Str) :
    s.state.Resolves nm ↔ s.state.Copyable nm :=
  resolves_iff (Scope.reach_sound hr).state nm

theorem regexScope_reads_assigned :
    Scope.system.Reach Scope.Promised regexScope ∧
      (regexScope.state.Resolves (text "d") ↔ regexScope.state.Copyable (text "d")) :=
  ⟨reach_regexScope, Scope.reads_assigned reach_regexScope (text "d")⟩

/-- The table of the included file has no copy. -/
theorem regexScope_assign_aborts :
    ¬ ∀ s : Scope, Scope.system.Reach Scope.Promised s → ∀ nm, s.state.Resolves nm := by
  intro h
  obtain ⟨d, t, _, _, href, -⟩ := h regexScope reach_regexScope (text "r")
  have hnone : lookupRef (text "r") regexScope.state = none := rfl
  rw [hnone] at href
  cases href

end Reachable

end Okws.Pub3
