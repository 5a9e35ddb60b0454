import Okws.Lib.Demand
import Okws.MsgpackRound

namespace Okws.Msgpack

open BigEndian Lib

namespace Hook

def width : Hook → Nat
  | .float => 4
  | .double => 8
  | .uint w => w
  | .int w => w
  | .raw w => w
  | .array w => w
  | .map w => w
  | _ => 0

def extra (b : UInt8) (l : Str) : Hook → Nat
  | .fixRaw => (b ^^^ 0xa0).toNat
  | .raw _ => get 0 l
  | _ => 0

def kids (b : UInt8) (l : Str) : Hook → Nat
  | .fixArray => (b ^^^ 0x90).toNat
  | .fixMap => 2 * (b ^^^ 0x80).toNat
  | .array _ => get 0 l
  | .map _ => 2 * get 0 l
  | _ => 0

end Hook

/-- A type byte, the number behind it and the text behind that, and how many values follow. -/
inductive Item : Str → Nat → Prop
  | mk {b h l r} : unpackTab b = some h → l.length = h.width → r.length = h.extra b l →
      Item (b :: (l ++ r)) (h.kids b l)

/-- The input ends where the type byte of a value is expected. -/
def Boundary (s : Str) : Prop := ∃ n, Reads Item 1 s (n + 1)

def OneValue (s : Str) : Prop := Reads Item 1 s 0

def Cut (s : Str) : Prop := s ≠ [] ∧ ∃ r k, r ≠ [] ∧ Item (s ++ r) k

/-- What comes next where `n` values are still to come, and what the decoder does there. -/
inductive Stuck : Nat → Str → Except Errno Str → Prop
  | done {s} : Stuck 0 s (.ok s)
  | boundary {n} : Stuck (n + 1) [] (.error .none)
  | cut {n s} : Cut s → Stuck (n + 1) s (.error .eagain)
  | invalid {n b s} : unpackTab b = none → Stuck (n + 1) (b :: s) (.error .einval)

def Inside (s : Str) : Prop := ∃ p q n, s = p ++ q ∧ Reads Item 1 p (n + 1) ∧ Cut q

def Stops (m : Nat) (s : Str) (x : Except Errno Str) : Prop :=
  ∃ p q n, s = p ++ q ∧ Reads Item m p n ∧ Stuck n q x

section Stops

variable {m n k : Nat} {s t : Str} {x y : Except Errno Str}

theorem item_free : PrefixFree Item := by
  intro t t' k k' s s' ht ht' heq
  obtain @⟨b, h, l, r, htab, hl, hr⟩ := ht
  obtain @⟨b', h', l', r', htab', hl', hr'⟩ := ht'
  rw [List.cons_append, List.cons_append, List.cons.injEq, List.append_assoc,
    List.append_assoc] at heq
  obtain ⟨rfl, heq⟩ := heq
  obtain rfl := Option.some.inj (htab.symm.trans htab')
  obtain ⟨rfl, hrest⟩ := List.append_inj heq (hl.trans hl'.symm)
  obtain ⟨rfl, -⟩ := List.append_inj hrest (hr.trans hr'.symm)
  exact ⟨rfl, rfl⟩

theorem not_item_nil : ¬ Item [] k := nofun

theorem not_cut_item (ht : Item t k) : ¬ Cut (t ++ s) := by
  rintro ⟨-, r, k', hr, h⟩
  have heq : t ++ (s ++ r) = (t ++ s ++ r) ++ [] := by simp
  obtain ⟨ht, -⟩ := item_free ht h heq
  have hlen := congrArg List.length ht
  have hpos := List.length_pos_of_ne_nil hr
  simp only [List.length_append] at hlen
  omega

theorem item_tab {b : UInt8} (h : Item (b :: s) k) : unpackTab b ≠ none := by
  generalize hq : b :: s = q at h
  obtain @⟨b', h, l, r, htab, hl, hr⟩ := h
  obtain ⟨rfl, -⟩ := List.cons.inj hq
  exact fun hb => Option.some_ne_none h (htab.symm.trans hb)

theorem Stuck.halt {c : Str} (h : Stuck n (c ++ s) x) (hc : Reads Item n c k) :
    c = [] ∧ k = n := by
  cases hc with
  | nil => exact ⟨rfl, rfl⟩
  | tok ht _ =>
    rw [List.append_assoc] at h
    generalize hq : _ ++ (_ ++ s) = q at h
    cases h with
    | boundary =>
      obtain ⟨rfl, -⟩ := List.append_eq_nil_iff.1 hq
      exact absurd ht not_item_nil
    | cut hcut => exact absurd (hq ▸ hcut) (not_cut_item ht)
    | invalid hb =>
      obtain ⟨rfl, -⟩ | ⟨t, rfl, -⟩ := List.append_eq_cons_iff.1 hq
      · exact absurd ht not_item_nil
      · exact absurd hb (item_tab ht)

theorem Stuck.unique (h : Stuck n s x) (h' : Stuck n s y) : x = y := by
  have hne {b : UInt8} {s : Str} (hb : unpackTab b = none) (hc : Cut (b :: s)) : False := by
    obtain ⟨-, r, k, -, hi⟩ := hc
    exact item_tab hi hb
  cases h with
  | done =>
    cases h'
    rfl
  | boundary =>
    cases h' with
    | boundary => rfl
    | cut hc => exact absurd rfl hc.1
  | cut hc =>
    cases h' with
    | boundary => exact absurd rfl hc.1
    | cut => rfl
    | invalid hb => exact (hne hb hc).elim
  | invalid hb =>
    cases h' with
    | cut hc => exact (hne hb hc).elim
    | invalid => rfl

theorem Stops.unique (h : Stops m s x) (h' : Stops m s y) : x = y := by
  obtain ⟨p, q, n, rfl, hp, hx⟩ := h
  obtain ⟨p', q', n', heq, hp', hy⟩ := h'
  obtain ⟨c, rfl, hc⟩ | ⟨c, rfl, hc⟩ := hp.linear item_free hp' heq
  · rw [List.append_assoc] at heq
    have hq := List.append_cancel_left heq
    subst hq
    obtain ⟨rfl, rfl⟩ := hx.halt hc
    exact hx.unique hy
  · rw [List.append_assoc] at heq
    have hq := List.append_cancel_left heq
    subst hq
    obtain ⟨rfl, rfl⟩ := hy.halt hc
    exact hx.unique hy

theorem Stops.done (s : Str) : Stops 0 s (.ok s) := ⟨[], s, 0, rfl, .nil, .done⟩

theorem Stops.tok (ht : Item t k) (h : Stops (k + m) s x) : Stops (m + 1) (t ++ s) x := by
  obtain ⟨p, q, n, rfl, hp, hx⟩ := h
  exact ⟨t ++ p, q, n, (List.append_assoc ..).symm, .tok ht hp, hx⟩

theorem Stops.bind {v : Str → Except Errno Str} (h : Stops m s x)
    (hv : ∀ p r, s = p ++ r → x = .ok r → Stops n r (v r)) : Stops (m + n) s (x.bind v) := by
  obtain ⟨p, q, k, rfl, hp, hx⟩ := h
  cases hx with
  | done =>
    obtain ⟨p', q', k', rfl, hp', hx'⟩ := hv p _ rfl rfl
    refine ⟨p ++ p', q', k', (List.append_assoc ..).symm, ?_, hx'⟩
    have hadd := hp.add n
    rw [Nat.zero_add] at hadd
    exact hadd.trans hp'
  | @boundary k => exact ⟨p, [], k + n + 1, rfl, by simpa [Nat.add_right_comm] using hp.add n,
      .boundary⟩
  | @cut k _ hc => exact ⟨p, q, k + n + 1, rfl, by simpa [Nat.add_right_comm] using hp.add n,
      .cut hc⟩
  | @invalid k b q hb => exact ⟨p, b :: q, k + n + 1, rfl,
      by simpa [Nat.add_right_comm] using hp.add n, .invalid hb⟩

theorem stops_boundary : Stops 1 s (.error .none) ↔ Boundary s := by
  constructor
  · rintro ⟨p, q, n, rfl, hp, hx⟩
    cases hx with
    | @boundary n => exact ⟨n, (List.append_nil p).symm ▸ hp⟩
  · rintro ⟨n, hs⟩
    exact ⟨s, [], n + 1, (List.append_nil s).symm, hs, .boundary⟩

theorem stops_inside : Stops 1 s (.error .eagain) ↔ Inside s := by
  constructor
  · rintro ⟨p, q, n, rfl, hp, hx⟩
    cases hx with
    | @cut n _ hc => exact ⟨p, q, n, rfl, hp, hc⟩
  · rintro ⟨p, q, n, rfl, hp, hc⟩
    exact ⟨p, q, n + 1, rfl, hp, .cut hc⟩

theorem stops_ok : Stops 1 s (.ok t) ↔ ∃ p, s = p ++ t ∧ OneValue p := by
  constructor
  · rintro ⟨p, q, n, rfl, hp, hx⟩
    cases hx
    exact ⟨p, rfl, hp⟩
  · rintro ⟨p, rfl, hp⟩
    exact ⟨p, t, 0, rfl, hp, .done⟩

theorem stops_one : Stops 1 s (.ok []) ↔ OneValue s := by
  rw [stops_ok]
  constructor
  · rintro ⟨p, rfl, hp⟩
    exact (List.append_nil p).symm ▸ hp
  · exact fun hs => ⟨s, (List.append_nil s).symm, hs⟩

theorem Stops.append_ok (h : Stops m s (.ok t)) (c : Str) : Stops m (s ++ c) (.ok (t ++ c)) := by
  obtain ⟨p, q, n, rfl, hp, hx⟩ := h
  cases hx
  exact ⟨p, t ++ c, 0, List.append_assoc .., hp, .done⟩

theorem Stops.append_einval (h : Stops m s (.error .einval)) (c : Str) :
    Stops m (s ++ c) (.error .einval) := by
  obtain ⟨p, q, n, rfl, hp, hx⟩ := h
  cases hx with
  | @invalid n b q hb => exact ⟨p, b :: (q ++ c), n + 1, List.append_assoc .., hp, .invalid hb⟩

theorem reads_nils (n : Nat) : Reads Item n (List.replicate n 0xc0) 0 := by
  induction n with
  | zero => exact .nil
  | succ n ih =>
    have hnil : Item [0xc0] 0 := .mk (h := .nil) (l := []) (r := []) rfl rfl rfl
    refine .tok hnil ?_
    rwa [Nat.zero_add]

theorem exists_one_of_boundary (h : Boundary s) : ∃ t, OneValue (s ++ t) := by
  obtain ⟨n, hs⟩ := h
  exact ⟨_, hs.trans (reads_nils (n + 1))⟩

theorem exists_one_of_inside (h : Inside s) : ∃ t, OneValue (s ++ t) := by
  obtain ⟨p, q, n, rfl, hp, -, r, k, -, hi⟩ := h
  have hread := (hp.trans (.tok hi .nil)).trans (reads_nils (k + n))
  exact ⟨r ++ List.replicate (k + n) 0xc0, by simpa [OneValue] using hread⟩

end Stops

section Skip

def after (u : Str → Except Errno (Pub3 × Str)) (s : Str) : Except Errno Str := (u s).map Prod.snd

def skip (v : Str → Except Errno Str) : Nat → Str → Except Errno Str
  | 0, s => .ok s
  | n + 1, s => (v s).bind (skip v n)

variable {e : Env} {u : Str → Except Errno (Pub3 × Str)} {s : Str}

theorem after_array (n : Nat) : (unpackArray u n s).map Prod.snd = skip (after u) n s := by
  induction n generalizing s with
  | zero => rfl
  | succ n ih =>
    rw [unpackArray, skip, after]
    cases u s with
    | error => rfl
    | ok a =>
      show ((unpackArray u n a.2).map _).map _ = skip (after u) n a.2
      rw [← ih]
      cases unpackArray u n a.2 <;> rfl

theorem after_map (he : ∀ x, ∃ t, e.toStr x = some t) (n : Nat) (d : List (Str × Pub3)) :
    (unpackMap e u n d s).map Prod.snd = skip (after u) (2 * n) s := by
  induction n generalizing s d with
  | zero => rfl
  | succ n ih =>
    rw [unpackMap, Nat.mul_succ, skip, after]
    cases u s with
    | error => rfl
    | ok a =>
      obtain ⟨t, ht⟩ := he a.1
      simp only [Except.bind, Except.map, ht, skip, after]
      cases u a.2 with
      | error => rfl
      | ok b => exact ih (insert t b.1 d)

theorem getBytes_cases (n : Nat) (s : Str) :
    (∃ l r, s = l ++ r ∧ l.length = n ∧ getBytes n s = .ok (l, r)) ∨
      (s.length < n ∧ getBytes n s = .error .eagain) := by
  by_cases h : n ≤ s.length
  · exact .inl ⟨s.take n, s.drop n, (List.take_append_drop n s).symm, List.length_take_of_le h,
      if_pos h⟩
  · exact .inr ⟨Nat.lt_of_not_le h, if_neg h⟩

theorem getBytes_zero (s : Str) : getBytes 0 s = .ok ([], s) := if_pos (Nat.zero_le _)

theorem map_map {α β γ : Type} (x : Except Errno α) (g : α → β) (g' : β → γ) :
    (x.map g).map g' = x.map (g' ∘ g) := by cases x <;> rfl

theorem map_bind {α β γ : Type} (x : Except Errno α) (g : α → Except Errno β) (g' : β → γ) :
    (x.bind g).map g' = x.bind fun a => (g a).map g' := by cases x <;> rfl

theorem map_eq_bind {α β : Type} (x : Except Errno α) (g : α → β) :
    x.map g = x.bind fun a => .ok (g a) := by cases x <;> rfl

theorem after_unpack (he : ∀ x, ∃ t, e.toStr x = some t) {b : UInt8} {h : Hook}
    (htab : unpackTab b = some h) (f : Nat) (s : Str) :
    after (unpack e (f + 1)) (b :: s) = (getBytes h.width s).bind fun (l, s) =>
      (getBytes (h.extra b l) s).bind fun (_, s) =>
        skip (after (unpack e f)) (h.kids b l) s := by
  cases h with
  | fixArray =>
    simp only [after, unpack, htab, Hook.width, Hook.extra, Hook.kids, getBytes_zero, map_map]
    exact after_array _
  | fixMap =>
    simp only [after, unpack, htab, Hook.width, Hook.extra, Hook.kids, getBytes_zero, map_map]
    exact after_map he _ _
  | array w =>
    simp only [after, unpack, htab, Hook.width, Hook.extra, Hook.kids, getBytes_zero, map_map,
      map_bind]
    exact congrArg _ (funext fun a => after_array _)
  | map w =>
    simp only [after, unpack, htab, Hook.width, Hook.extra, Hook.kids, getBytes_zero, map_map,
      map_bind]
    exact congrArg _ (funext fun a => after_map he _ _)
  | raw w =>
    simp only [after, unpack, htab, Hook.width, Hook.extra, Hook.kids, unpackRaw, map_map,
      map_bind]
    exact congrArg _ (funext fun a => map_eq_bind _ _)
  | fixRaw =>
    simp only [after, unpack, htab, Hook.width, Hook.extra, Hook.kids, unpackRaw, getBytes_zero,
      map_map]
    exact map_eq_bind _ _
  | float | double | uint w | int w =>
    simp only [after, unpack, htab, Hook.width, Hook.extra, Hook.kids, getBytes_zero, map_map]
    exact map_eq_bind _ _
  | positiveFixnum | negativeFixnum | nil | bool c =>
    simp only [after, unpack, htab, Hook.width, Hook.extra, Hook.kids, getBytes_zero]
    rfl

theorem cut_number {b : UInt8} {h : Hook} (htab : unpackTab b = some h)
    (hlt : s.length < h.width) : Cut (b :: s) := by
  let pad := List.replicate (h.width - s.length) (0 : UInt8)
  have hl : (s ++ pad).length = h.width := by
    rw [List.length_append, List.length_replicate]
    omega
  have hi := Item.mk htab hl (List.length_replicate (a := 0))
  rw [List.append_assoc, ← List.cons_append] at hi
  refine ⟨List.cons_ne_nil b s, _, _, fun hnil => ?_, hi⟩
  have hlen := congrArg List.length (List.append_eq_nil_iff.1 hnil).1
  rw [List.length_replicate, List.length_nil] at hlen
  omega

theorem cut_text {b : UInt8} {h : Hook} {l : Str} (htab : unpackTab b = some h)
    (hl : l.length = h.width) (hlt : s.length < h.extra b l) : Cut (b :: (l ++ s)) := by
  have hr : (s ++ List.replicate (h.extra b l - s.length) 0).length = h.extra b l := by
    rw [List.length_append, List.length_replicate]
    omega
  refine ⟨List.cons_ne_nil b _, List.replicate (h.extra b l - s.length) 0, h.kids b l, ?_, ?_⟩
  · intro hnil
    have hlen := congrArg List.length hnil
    rw [List.length_replicate, List.length_nil] at hlen
    omega
  · rw [List.cons_append, List.append_assoc]
    exact .mk htab hl hr

theorem stops_skip (he : ∀ x, ∃ t, e.toStr x = some t) {f : Nat} (m : Nat) {s : Str}
    (hf : s.length ≤ f) : Stops m s (skip (after (unpack e f)) m s) := by
  induction hlen : s.length using Nat.strong_induction_on generalizing s f m with
  | _ n ih =>
    subst hlen
    cases m with
    | zero => exact .done s
    | succ m =>
      cases s with
      | nil =>
        have hnil : after (unpack e f) [] = .error .none := by cases f <;> rfl
        rw [skip, hnil]
        exact ⟨[], [], m + 1, rfl, .nil, .boundary⟩
      | cons b s =>
        obtain ⟨g, rfl⟩ : ∃ g, f = g + 1 := ⟨f - 1, by simp at hf; omega⟩
        rw [List.length_cons] at hf
        cases htab : unpackTab b with
        | none =>
          have hbad : after (unpack e (g + 1)) (b :: s) = .error .einval := by
            rw [after, unpack, htab]
            rfl
          rw [skip, hbad]
          exact ⟨[], b :: s, m + 1, rfl, .nil, .invalid htab⟩
        | some h =>
          rw [skip, after_unpack he htab]
          obtain ⟨l, r, rfl, hl, hget⟩ | ⟨hlt, hget⟩ := getBytes_cases h.width s
          · rw [hget]
            show Stops _ _ (((getBytes (h.extra b l) r).bind _).bind _)
            obtain ⟨t, r, rfl, ht, hget⟩ | ⟨hlt, hget⟩ := getBytes_cases (h.extra b l) r
            · rw [hget]
              simp only [List.length_append] at hf
              have hin := ih r.length (by simp; omega) (f := g) (h.kids b l) (by omega) rfl
              have hall := hin.bind (n := m) (v := skip (after (unpack e (g + 1))) m)
                fun p q hq _ => ih q.length (by subst hq; simp; omega) m
                  (by subst hq; simp at hf; omega) rfl
              have hstop := Stops.tok (.mk htab hl ht) hall
              rwa [List.cons_append, List.append_assoc] at hstop
            · rw [hget]
              exact ⟨[], _, m + 1, rfl, .nil, .cut (cut_text htab hl hlt)⟩
          · rw [hget]
            exact ⟨[], _, m + 1, rfl, .nil, .cut (cut_number htab hlt)⟩

theorem stops_decode (he : ∀ x, ∃ t, e.toStr x = some t) (s : Str) :
    Stops 1 s ((decode e s).map Prod.snd) := by
  have hstop := stops_skip he 1 (Nat.le_refl s.length)
  have hone : skip (after (unpack e s.length)) 1 s = after (unpack e s.length) s := by
    rw [skip]
    cases after (unpack e s.length) s <;> rfl
  rwa [hone] at hstop

theorem decode_map_iff (he : ∀ x, ∃ t, e.toStr x = some t) {x : Except Errno Str} :
    (decode e s).map Prod.snd = x ↔ Stops 1 s x :=
  ⟨fun h => h ▸ stops_decode he s, fun h => (stops_decode he s).unique h⟩

theorem decode_error_iff (he : ∀ x, ∃ t, e.toStr x = some t) {err : Errno} :
    decode e s = .error err ↔ Stops 1 s (.error err) := by
  rw [← decode_map_iff he]
  cases decode e s <;> simp [Except.map]

theorem decode_ok_iff (he : ∀ x, ∃ t, e.toStr x = some t) {r : Str} :
    (∃ y, decode e s = .ok (y, r)) ↔ Stops 1 s (.ok r) := by
  rw [← decode_map_iff he]
  cases h : decode e s with
  | error err => simp [Except.map]
  | ok a => simp [Except.map, Prod.ext_iff]

theorem inside_iff_of_one {m p : Str} (hm : OneValue m) (hp : p <+: m) (hne : p ≠ m) :
    Inside p ↔ ¬ Boundary p := by
  obtain ⟨c, rfl⟩ := hp
  have hc : c ≠ [] := fun hc => hne (by rw [hc, List.append_nil])
  have hstop : ∃ x, Stops 1 p x := ⟨_, stops_decode (e := ⟨fun _ => some [], fun _ => 0⟩)
    (fun x => by cases x <;> exact ⟨_, rfl⟩) p⟩
  constructor
  · exact fun hin hb => nomatch (stops_inside.2 hin).unique (stops_boundary.2 hb)
  · intro hb
    obtain ⟨r | r, hx⟩ := hstop
    · cases r with
      | eagain => exact stops_inside.1 hx
      | einval => exact nomatch (hx.append_einval c).unique (stops_one.2 hm)
      | none => exact absurd (stops_boundary.1 hx) hb
    · have hnil := Except.ok.inj ((hx.append_ok c).unique (stops_one.2 hm))
      exact absurd (List.append_eq_nil_iff.1 hnil).2 hc

end Skip

section Append

variable {e : Env} {u u' : Str → Except Errno (Pub3 × Str)} {s t : Str} {β γ : Type}

/-- What the first reader takes, the second one takes in front of `t`. -/
def Grows (t : Str) (r r' : Except Errno (β × Str)) : Prop :=
  ∀ x q, r = .ok (x, q) → r' = .ok (x, q ++ t)

theorem Grows.bind {r r' : Except Errno (β × Str)} {k k' : β × Str → Except Errno (γ × Str)}
    (h : Grows t r r') (hk : ∀ x q, Grows t (k (x, q)) (k' (x, q ++ t))) :
    Grows t (r.bind k) (r'.bind k') := by
  intro y q hr
  obtain ⟨⟨x, p⟩, hx, hy⟩ := bind_ok hr
  rw [h x p hx]
  exact hk x p y q hy

theorem Grows.map {r r' : Except Errno (β × Str)} {k : β × Str → γ × Str} (h : Grows t r r')
    (hk : ∀ x q, k (x, q ++ t) = ((k (x, q)).1, (k (x, q)).2 ++ t)) :
    Grows t (r.map k) (r'.map k) := by
  intro y q hr
  obtain ⟨⟨x, p⟩, hx, hy⟩ := map_ok hr
  rw [h x p hx]
  show Except.ok (k (x, p ++ t)) = _
  rw [hk, hy]

theorem grows_ok (x : β) (s : Str) : Grows t (.ok (x, s)) (.ok (x, s ++ t)) := by
  intro y q h
  cases h
  rfl

theorem grows_array (hu : ∀ s, Grows t (u s) (u' (s ++ t))) (n : Nat) (s : Str) :
    Grows t (unpackArray u n s) (unpackArray u' n (s ++ t)) := by
  induction n generalizing s with
  | zero => exact grows_ok [] s
  | succ n ih => exact (hu s).bind fun _ q => (ih q).map fun _ _ => rfl

theorem grows_map (hu : ∀ s, Grows t (u s) (u' (s ++ t))) (n : Nat) (d : List (Str × Pub3))
    (s : Str) : Grows t (unpackMap e u n d s) (unpackMap e u' n d (s ++ t)) := by
  induction n generalizing d s with
  | zero => exact grows_ok d s
  | succ n ih =>
    refine (hu s).bind fun k q => ?_
    dsimp only
    cases e.toStr k with
    | none => exact ih d q
    | some ks => exact (hu q).bind fun v r => ih (insert ks v d) r

theorem grows_getBytes (n : Nat) (s : Str) : Grows t (getBytes n s) (getBytes n (s ++ t)) := by
  intro l r h
  obtain ⟨l', r', rfl, hl, hget⟩ | ⟨-, hget⟩ := getBytes_cases n s
  · cases hget.symm.trans h
    rw [List.append_assoc]
    exact getBytes_append hl _
  · cases hget.symm.trans h

theorem grows_raw (n : Nat) (s : Str) : Grows t (unpackRaw n s) (unpackRaw n (s ++ t)) :=
  (grows_getBytes n s).map fun _ _ => rfl

theorem grows_unpack {f g : Nat} (hle : f ≤ g) (s : Str) :
    Grows t (unpack e f s) (unpack e g (s ++ t)) := by
  induction f generalizing g s with
  | zero =>
    intro x q h
    cases s <;> cases h
  | succ f ih =>
    obtain ⟨g, rfl⟩ : ∃ k, g = k + 1 := ⟨g - 1, by omega⟩
    have hu : ∀ s, Grows t (unpack e f s) (unpack e g (s ++ t)) := fun s => ih (by omega) s
    cases s with
    | nil =>
      intro x q h
      cases h
    | cons b s =>
      rw [List.cons_append]
      cases htab : unpackTab b with
      | none =>
        intro x q h
        simp only [unpack, htab] at h
        cases h
      | some hook =>
        cases hook <;> simp only [unpack, htab]
        case fixArray => exact (grows_array hu _ s).map fun _ _ => rfl
        case fixMap => exact (grows_map hu _ [] s).map fun _ _ => rfl
        case fixRaw => exact grows_raw _ s
        case raw w => exact (grows_getBytes w s).bind fun l q => grows_raw _ q
        case array w =>
          exact (grows_getBytes w s).bind fun l q => (grows_array hu _ q).map fun _ _ => rfl
        case map w =>
          exact (grows_getBytes w s).bind fun l q => (grows_map hu _ [] q).map fun _ _ => rfl
        case float | double | uint w | int w => exact (grows_getBytes _ s).map fun _ _ => rfl
        all_goals exact grows_ok _ s

theorem decode_append {x : Pub3} {r : Str} (h : decode e s = .ok (x, r)) (t : Str) :
    decode e (s ++ t) = .ok (x, r ++ t) :=
  grows_unpack (by simp) s x r h

end Append

end Okws.Msgpack
