import Mathlib.Data.List.Find
import Okws.HdrLines

namespace Okws

open Lib

namespace Hdr

def cookie : Str := ascii ['c', 'o', 'o', 'k', 'i', 'e']

def Proper (line : Str) : Prop := ∃ k raw e, line = k ++ 58 :: (raw ++ e) ∧ 58 ∉ k ∧
  (∀ b ∈ raw, Byte.isEol b = false) ∧ (e = [] ∨ e = [Byte.cr])

/-- The first line with the name `q`. -/
def find (q : Str) (ls : List Str) : Option Str := ls.find? fun l => (field l).1 = q

/-- Whether a line is stored in the table, and not in that of the cookies. -/
def stored (cookies : Bool) (line : Str) : Bool := !(cookies && (field line).1 == cookie)

/-- What the service has stored when it has read the lines `ls`. -/
structure Parsed (cookies : Bool) (ls : List Str) (t : PairTab) : Prop where
  colon : ∀ l ∈ ls, 58 ∈ l
  name : ∀ l ∈ ls, Byte.sp ∉ (field l).1
  proper : ∀ l ∈ ls, stored cookies l = true → Proper l
  tab : t = .ofList ((ls.filter (stored cookies)).map fun l =>
    ((field l).1, (field l).2.dropWhile Byte.isHws))

variable {cookies : Bool}

theorem parsed_nil : Parsed cookies [] .empty := ⟨nofun, nofun, nofun, rfl⟩

theorem field_eq {k u : Str} (hk : 58 ∉ k) :
    field (k ++ 58 :: u) = (k.map Byte.toLower, u.takeWhile (!Byte.isEol ·)) := by
  have hall : ∀ b ∈ k, decide (b ≠ 58) = true := by
    intro b hb
    simp only [decide_eq_true_eq]
    exact fun he => hk (he ▸ hb)
  unfold field
  rw [List.takeWhile_append_of_pos hall, List.dropWhile_append_of_pos hall]
  simp

theorem field_proper {k raw e : Str} (hk : 58 ∉ k) (hraw : ∀ b ∈ raw, Byte.isEol b = false)
    (he : e = [] ∨ e = [Byte.cr]) : field (k ++ 58 :: (raw ++ e)) = (k.map Byte.toLower, raw) := by
  have hall : ∀ b ∈ raw, (!Byte.isEol b) = true := fun b hb => by simp [hraw b hb]
  have hend : e.takeWhile (!Byte.isEol ·) = [] := by
    obtain rfl | rfl := he <;> rfl
  rw [field_eq hk, List.takeWhile_append_of_pos hall, hend, List.append_nil]

variable {ls : List Str} {t : PairTab} {k raw e : Str}

theorem Parsed.first (h : Parsed cookies ls t) {q : Str} (hcookie : q ≠ cookie) (hq : q ≠ []) :
    t.first q = (find q ls).map fun l => (field l).2.dropWhile Byte.isHws := by
  have hstored (l : Str) (hl : (field l).1 = q) : stored cookies l = true := by
    simp [stored, hl, hcookie]
  rw [h.tab, PairTab.ofList_first _ hq, List.find?_map, List.find?_filter, Option.map_map]
  refine congrArg (Option.map _) (List.find?_congr fun l _ => ?_)
  by_cases hl : (field l).1 = q
  · simp [hl, hstored l hl]
  · simp [hl]

theorem sp_name {k : Str} (h : ∀ b ∈ k, Byte.isHws b = false) : Byte.sp ∉ k.map Byte.toLower := by
  intro hsp
  obtain ⟨b, hb, hlow⟩ := List.mem_map.1 hsp
  have hws := h b hb
  rw [Byte.toLower_sp b hlow] at hws
  cases hws

theorem Parsed.line {l : Str} {t' : PairTab} (h : Parsed cookies ls t) (hcolon : 58 ∈ l)
    (hname : Byte.sp ∉ (field l).1) (hproper : stored cookies l = true → Proper l)
    (ht : t' = if stored cookies l then
      t.insert (some (field l).1) (some ((field l).2.dropWhile Byte.isHws)) true true else t) :
    Parsed cookies (ls ++ [l]) t' where
  colon l' hl' := (List.mem_append.1 hl').elim (h.colon l') fun h' =>
    List.mem_singleton.1 h' ▸ hcolon
  name l' hl' := (List.mem_append.1 hl').elim (h.name l') fun h' =>
    List.mem_singleton.1 h' ▸ hname
  proper l' hl' := (List.mem_append.1 hl').elim (h.proper l') fun h' =>
    List.mem_singleton.1 h' ▸ hproper
  tab := by
    rw [ht, List.filter_append, List.map_append, PairTab.ofList, List.foldl_append, ← PairTab.ofList,
      ← h.tab]
    cases hs : stored cookies l <;> simp [hs]

theorem Parsed.cookie (h : Parsed cookies ls t) (hk : 58 ∉ k) (hws : ∀ b ∈ k, Byte.isHws b = false)
    (hc : k.map Byte.toLower = cookie) (hcookies : cookies = true) (u : Str) :
    Parsed cookies (ls ++ [k ++ 58 :: u]) t := by
  have hstored : stored cookies (k ++ 58 :: u) = false := by
    simp [stored, field_eq hk, hc, hcookies]
  refine h.line (by simp) ?_ (fun hs => ?_) (by rw [hstored]; rfl)
  · rw [field_eq hk]
    exact sp_name hws
  · cases hstored.symm.trans hs

theorem Parsed.insert (h : Parsed cookies ls t) (hk : 58 ∉ k) (hws : ∀ b ∈ k, Byte.isHws b = false)
    (hc : cookies = true → k.map Byte.toLower ≠ Hdr.cookie)
    (hraw : ∀ b ∈ raw, Byte.isEol b = false) (he : e = [] ∨ e = [Byte.cr]) :
    Parsed cookies (ls ++ [k ++ 58 :: (raw ++ e)])
      (t.insert (some (k.map Byte.toLower)) (some (raw.dropWhile Byte.isHws)) true true) := by
  have hstored : stored cookies (k ++ 58 :: (raw ++ e)) = true := by
    cases hcookies : cookies with
    | false => rfl
    | true => simp [stored, field_eq hk, hc hcookies]
  refine h.line (by simp) ?_ (fun _ => ⟨k, raw, e, rfl, hk, hraw, he⟩) ?_
  · rw [field_eq hk]
    exact sp_name hws
  · rw [hstored, field_proper hk hraw he]
    rfl

/-- The first lines of a request, and the rest of it. -/
structure Cut (B : Str) (ls : List Str) (l : Str) : Prop where
  lines : Hdr.lines none B = ls ++ Hdr.lines none l
  complete : complete true B = complete true l

theorem Cut.trans {B l l' : Str} {ls ls' : List Str} (h : Cut B ls l) (h' : Cut l ls' l') :
    Cut B (ls ++ ls') l' where
  lines := by rw [h.lines, h'.lines, List.append_assoc]
  complete := h.complete.trans h'.complete

theorem cut_cons {b : UInt8} {u : Str} (bytes : Str) (hb : Byte.isEol b = false)
    (h : Byte.lf ∉ u) : Cut (b :: u ++ Byte.lf :: bytes) [b :: u] bytes where
  lines := lines_cons bytes hb h
  complete := by
    rw [List.cons_append, Hdr.complete, hb, Bool.false_or, complete_line bytes h]

end Hdr

namespace InHdr

/-- A line that has begun: its name and what has been read behind the colon. -/
structure Open (cookies : Bool) (B : Str) (v : InHdr) (u l : Str) : Prop where
  ex : ∃ l₀ ls k, Hdr.Cut B (l₀ :: ls) (k ++ 58 :: (u ++ l)) ∧
    (∀ b ∈ k, b ≠ 58 ∧ Byte.isHws b = false ∧ Byte.isEol b = false) ∧
    v.key = some (k.map Byte.toLower) ∧ Hdr.Parsed cookies ls v.tab

/-- Where the parser is when `l` is left of the request `B`. -/
def At (cookies : Bool) (B : Str) (v : InHdr) (l : Str) : Prop :=
  match v.state with
  | .start | .spc1 | .target | .uridat | .spc2 | .optparam | .eol1 =>
    v.tab = .empty ∧ v.noins = false ∧ ∃ u, B = u ++ l ∧ Byte.lf ∉ u
  | .key => v.ext = false ∧ v.noins = false ∧
    ∃ l₀ ls, Hdr.Cut B (l₀ :: ls) l ∧ Hdr.Parsed cookies ls v.tab
  | .spc3 => v.ext = false ∧ v.noins = false ∧ Open cookies B v [] l
  | .value => ∃ u, u.all Byte.isHws = true ∧ Open cookies B v u l ∧
    if v.ext then v.noins = true ∧ v.key = some Hdr.cookie ∧ cookies = true
    else v.noins = false ∧ l.dropWhile Byte.isHws = l
  | .eol2a => v.ext = false ∧ ∃ u, Byte.lf ∉ u ∧ Open cookies B v u l ∧
    if v.noins then v.key = some Hdr.cookie ∧ cookies = true
    else (cookies = true → v.key ≠ some Hdr.cookie) ∧
      (∀ b ∈ u, Byte.isEol b = false) ∧ v.val = some (u.dropWhile Byte.isHws)
  | .eol2b => v.ext = false ∧ v.noins = false ∧ ∃ l₀ ls b line,
    Hdr.Cut B (l₀ :: ls) (b :: line ++ l) ∧ Byte.isEol b = false ∧ Byte.lf ∉ line ∧
    ∀ e, e = [] ∨ e = [Byte.cr] → Hdr.Parsed cookies (ls ++ [b :: line ++ e]) v.tab
  | .beyond => True

structure Running (cookies : Bool) (B : Str) (v : InHdr) (t : Tape) : Prop where
  scr : v.scr.text = []
  needLF : v.needLF = false
  status : v.status ≠ Http.ok
  ex : ∃ l, t.Whole l ∧ At cookies B v l

section Rounds

variable {cfg : InHdrConfig} {B l : Str} {v v' : InHdr} {t t' : Tape}

theorem word_whole {mark : UInt8 → Mark} (b : Bool) {f : UInt8 → UInt8} (set : InHdr → Str → InHdr)
    (hput : ∀ b c, mark b = .put c → c = f b) (htext : v.scr.text = []) (ht : t.Whole l) :
    ∃ r v' t', word (delimScanner mark b) set v t = (some r, v', t') ∧
      (r = .ok → ∃ s u l', v' = set { v with scr := s } (u.map f) ∧ s.text = [] ∧ t'.Whole l' ∧
        (∀ b ∈ u, mark b = .put (f b)) ∧
        ((∃ b, l = u ++ b :: l' ∧ mark b = .stop true) ∨
          (l = u ++ l' ∧ ((b = true ∧ l' = []) ∨ ∃ c, l'.head? = some c ∧ mark c = .stop false)))) ∧
      (r ≠ .ok → ∃ s, v' = { v with scr := s }) := by
  have hread := read_delim b hput v.scr l
  obtain ⟨t', hw, ht'⟩ : ∃ t' : Tape, word (delimScanner mark b) set v t = _ ∧ t'.Whole _ :=
    Reader.ofScan_whole _ _ _ _ v ht
  refine ⟨_, _, t', hw, ?_⟩
  rcases hr : (delimScanner mark b).read v.scr l with ⟨_ | w, s, l'⟩ <;> rw [hr] at hread ht'
  · exact ⟨fun h => absurd h hread, fun _ => ⟨s, rfl⟩⟩
  · obtain ⟨hs, u, rfl, hall, hend⟩ := hread
    refine ⟨fun _ => ⟨s, u, l', by simp [htext], hs, ht', hall, hend⟩, fun h => absurd rfl h⟩

def frame (v : InHdr) : PairTab × Bool × Bool × Nat := (v.tab, v.noins, v.needLF, v.status)

variable (cfg) in
theorem first_frame {q : InHdrSt} (hq : 8 ≤ rank q) : Reader.Keeps frame (act cfg q) := by
  have hword {S : Scanner UInt8 Scratch (Except Stat Str)} {set : InHdr → Str → InHdr}
      (hset : ∀ v s, frame (set v s) = frame v) : Reader.Keeps frame (word S set) :=
    Reader.keeps_ofScan (fun _ _ => rfl) fun v r => by cases r <;> simp [hset]
  have heol : Reader.Keeps frame eol := Reader.keeps_ofScan (fun _ _ => rfl) fun _ _ => rfl
  have hhws (mn : Nat) : Reader.Keeps frame (skipHws mn) :=
    Reader.keeps_ofScan (fun _ _ => rfl) fun _ _ => rfl
  cases q with
  | start =>
    intro v t
    have hkeep : Reader.Keeps frame
        (word (delimitWord false) fun v s => { v with tmthd := some s }) :=
      hword fun _ _ => rfl
    exact hkeep v _
  | spc1 => exact hhws 1
  | target => exact hword fun _ _ => rfl
  | uridat => exact Reader.keeps_ofScan (fun _ _ => rfl) fun v r => by split <;> rfl
  | spc2 =>
    intro v t
    have he := heol v t
    simp only [act]
    split
    · exact he
    · exact (hhws 1 _ _).trans he
  | optparam => exact Reader.keeps_onStat heol (hword fun _ _ => rfl)
  | _ => simp [rank] at hq

theorem skipHws_whole (mn : Nat) (v : InHdr) (ht : t.Whole l) :
    ∃ r k t', skipHws mn v t = (some r, { v with spcs := k }, t') ∧
      t'.Whole (l.dropWhile Byte.isHws) := by
  obtain ⟨t', hw, ht'⟩ := Reader.ofScan_whole (skipHwsScanner mn) InHdr.spcs
    (fun v k => { v with spcs := k }) (fun v r => (r, v)) v ht
  rw [read_hws] at ht'
  exact ⟨_, _, t', hw, ht'⟩

theorem eol_whole (v : InHdr) (ht : t.Whole l) : ∃ r t', eol v t =
    (some r, v, t') ∧ t'.Whole l := by
  obtain ⟨t', hw, ht'⟩ :=
    Reader.ofScan_whole Okws.eol (fun _ => ()) (fun v _ => v) (fun v r => (r, v)) v ht
  rw [read_eol] at ht'
  exact ⟨_, t', hw, ht'⟩

theorem hws_eaten (l : Str) : ∃ u, l = u ++ l.dropWhile Byte.isHws ∧ u.all Byte.isHws = true :=
  ⟨l.takeWhile Byte.isHws, (List.takeWhile_append_dropWhile ..).symm, List.all_takeWhile⟩

theorem lf_hws {u : Str} (h : u.all Byte.isHws = true) : ∀ b ∈ u, Byte.isEol b = false := by
  intro b hb
  have hws := List.all_eq_true.1 h b hb
  simp only [Byte.isHws, Bool.or_eq_true, beq_iff_eq] at hws
  obtain rfl | rfl := hws <;> rfl

theorem lf_of_eol {u : Str} (h : ∀ b ∈ u, Byte.isEol b = false) : Byte.lf ∉ u :=
  fun hmem => by simpa [Byte.isEol] using h _ hmem

/-- What an action of the first line does: it reads part of the line. -/
def Eats (l : Str) (x : Option Stat × InHdr × Tape) : Prop :=
  ∃ r v' t', x = (some r, v', t') ∧
    (r = .ok → v'.scr.text = [] ∧ ∃ u l', l = u ++ l' ∧ Byte.lf ∉ u ∧ t'.Whole l')

theorem delimitWord_put (qms : Bool) (b c : UInt8)
    (h : (if b = 63 then (if qms then .stop false else .put b)
      else if Byte.isHws b || Byte.isEol b then .stop false else .put b) = Mark.put c) : c =
        id b := by
  split_ifs at h <;> cases h <;> rfl

theorem word_eats (qms : Bool) {set : InHdr → Str → InHdr} (hset : ∀ v s, (set v s).scr = v.scr)
    (htext : v.scr.text = []) (ht : t.Whole l) : Eats l (word (delimitWord qms) set v t) := by
  obtain ⟨r, v', t', hw, hok, -⟩ := word_whole true (f := id) set (delimitWord_put qms) htext ht
  refine ⟨r, v', t', hw, fun hr => ?_⟩
  obtain ⟨s, u, l', rfl, hs, ht', hall, hend⟩ := hok hr
  have hlf : Byte.lf ∉ u := fun hmem => by
    have := hall _ hmem
    cases qms <;> cases this
  refine ⟨by rw [hset]; exact hs, ?_⟩
  obtain ⟨b, -, hb⟩ | ⟨hl, -⟩ := hend
  · split_ifs at hb <;> cases hb
  · exact ⟨u, l', hl, hlf, ht'⟩

theorem hws_eats (mn : Nat) (htext : v.scr.text = []) (ht : t.Whole l) :
    Eats l (skipHws mn v t) := by
  obtain ⟨r, k, t', hw, ht'⟩ := skipHws_whole mn v ht
  obtain ⟨u, hu, hall⟩ := hws_eaten l
  exact ⟨r, _, t', hw, fun _ => ⟨htext, u, _, hu, lf_of_eol (lf_hws hall), ht'⟩⟩

variable (cfg) in
theorem first_eats {q : InHdrSt} (hq : 8 ≤ rank q) (htext : v.scr.text = []) (ht : t.Whole l) :
    Eats l (act cfg q v t) := by
  cases q with
  | start => exact word_eats false (fun _ _ => rfl) htext (ht.setMir _)
  | spc1 => exact hws_eats 1 htext ht
  | target => exact word_eats cfg.parseQueryString (fun _ _ => rfl) htext ht
  | uridat =>
    obtain ⟨u, hu, hlf⟩ := read_expect (c := 63) (by decide) l
    obtain ⟨t', hw, ht'⟩ : ∃ t' : Tape, expectQuery v t = _ ∧ t'.Whole _ :=
      Reader.ofScan_whole _ _ _ _ v ht
    refine ⟨_, _, t', hw, fun _ => ⟨?_, u, _, hu, hlf, ht'⟩⟩
    split <;> exact htext
  | spc2 =>
    obtain ⟨r, t', hw, ht'⟩ := eol_whole v ht
    simp only [act, hw]
    split
    · exact ⟨r, v, t', rfl, fun _ => ⟨htext, [], l, rfl, by simp, ht'⟩⟩
    · exact hws_eats 1 htext ht'
  | optparam =>
    obtain ⟨r, t', hw, ht'⟩ := eol_whole v ht
    simp only [act, Reader.onStat_some hw]
    split
    · exact word_eats false (fun _ _ => rfl) htext ht'
    · exact ⟨r, v, t', rfl, fun _ => ⟨htext, [], l, rfl, by simp, ht'⟩⟩
  | _ => simp [rank] at hq

theorem requireCrlf_whole (hneed : v.needLF = false) (ht : t.Whole l) :
    ∃ r need t', requireCrlf v t = (some r, { v with needLF := need }, t') ∧
      (r = .ok → need = false ∧
      ∃ l', t'.Whole l' ∧ ∃ e, (e = [] ∨ e = [Byte.cr]) ∧ l = e ++ Byte.lf :: l') := by
  obtain ⟨t', hw, ht'⟩ := Reader.ofScan_whole Okws.gobbleCrlf InHdr.needLF
    (fun v b => { v with needLF := b }) (fun v r => (Okws.requireCrlf r, v)) v ht
  have hread := read_gobble l
  rw [hneed] at hw ht'
  rcases hr : Okws.gobbleCrlf.read false l with ⟨r, need, l'⟩
  rw [hr] at hw ht' hread
  refine ⟨_, need, t', hw, fun hok => ?_⟩
  cases r with
  | ok =>
    obtain ⟨hn, rfl | rfl⟩ := hread
    · exact ⟨hn, l', ht', [], .inl rfl, rfl⟩
    · exact ⟨hn, l', ht', [Byte.cr], .inr rfl, rfl⟩
  | _ => cases hok

/-- The header is complete, and `t` is the table of it. -/
def Accepted (cookies : Bool) (B : Str) (t : PairTab) : Prop :=
  Hdr.complete true B = true ∧
    ∃ l₀ ls, Hdr.lines none B = l₀ :: ls ∧ Hdr.Parsed cookies ls t

def Goes (cfg : InHdrConfig) (B : Str) (x : Option Stat × InHdr × Tape) : Prop :=
  ∃ r v' t', x = (some r, v', t') ∧
    (r = .ok → (v'.ext = true → Running cfg.parseCookies B v' t') ∧
      (v'.ext = false →
        Running cfg.parseCookies B { v' with state := after cfg v'.state } t')) ∧
    (r ≠ .ok → v'.status = Http.ok → Accepted cfg.parseCookies B v'.tab)

theorem at_first {cookies : Bool} {B l : Str} (hq : 7 ≤ rank v.state) :
    At cookies B v l ↔ v.tab = .empty ∧ v.noins = false ∧ ∃ u, B = u ++ l ∧ Byte.lf ∉ u := by
  unfold At
  cases hs : v.state <;> rw [hs] at hq <;> first | exact Iff.rfl | simp [rank] at hq

theorem first_goes (hq : 8 ≤ rank v.state) (hR : Running cfg.parseCookies B v t) :
    Goes cfg B (act cfg v.state v t) := by
  obtain ⟨htext, hneed, hst, l, ht, hat⟩ := hR
  rw [at_first (Nat.le_of_succ_le hq)] at hat
  obtain ⟨htab, hnoins, u, hB, hu⟩ := hat
  obtain ⟨r, v', t', hact, hok⟩ := first_eats cfg hq htext ht
  have hframe := first_frame cfg hq v t
  rw [hact] at hframe
  simp only [frame, Prod.mk.injEq] at hframe
  obtain ⟨hf₁, hf₂, hf₃, hf₄⟩ := hframe
  obtain ⟨hstate, -⟩ := act_frame hact
  refine ⟨r, v', t', hact, fun hr => ?_, fun _ hs => absurd (hf₄ ▸ hs) hst⟩
  obtain ⟨hscr, w, l', rfl, hw, ht'⟩ := hok hr
  have hB' : ∃ u, B = u ++ l' ∧ Byte.lf ∉ u := ⟨u ++ w, by simp [hB], by simp [hu, hw]⟩
  refine ⟨fun _ => ⟨hscr, hf₃.trans hneed, hf₄ ▸ hst, l', ht', ?_⟩,
    fun _ => ⟨hscr, hf₃.trans hneed, hf₄ ▸ hst, l', ht', ?_⟩⟩
  · rw [at_first (by rw [hstate]; omega)]
    exact ⟨hf₁.trans htab, hf₂.trans hnoins, hB'⟩
  · have hrank : 7 ≤ rank (after cfg v'.state) := by
      rw [hstate]
      revert hq
      cases hp : cfg.parseQueryString <;> cases v.state <;> simp [rank, after, InHdrSt.inc, hp]
    rw [at_first hrank]
    exact ⟨hf₁.trans htab, hf₂.trans hnoins, hB'⟩

theorem eol1_goes (hB : ∀ b, B.head? = some b → Byte.isEol b = false) (hs : v.state = .eol1)
    (hext : v.ext = false) (hR : Running cfg.parseCookies B v t) :
    Goes cfg B (act cfg .eol1 v t) := by
  obtain ⟨htext, hneed, hst, l, ht, hat⟩ := hR
  rw [at_first (by simp [hs, rank])] at hat
  obtain ⟨htab, hnoins, u, rfl, hu⟩ := hat
  obtain ⟨r, need, t', hact, hok⟩ := requireCrlf_whole (v := { v with line1 := some t.endMirror.1 })
    (t := t.endMirror.2) hneed (ht.setMir none)
  refine ⟨r, _, t', hact, fun hr => ⟨fun he => ?_, fun _ => ?_⟩, fun _ h => absurd h hst⟩
  · cases hext.symm.trans he
  · obtain ⟨rfl, l', ht', e, he, rfl⟩ := hok hr
    refine ⟨htext, rfl, hst, l', ht', ?_⟩
    have hue : Byte.lf ∉ u ++ e := by
      obtain rfl | rfl := he
      · simpa using hu
      · simp [hu, show Byte.lf ≠ Byte.cr by decide]
    -- the line is not empty, for the request does not begin with a line end
    have hline : ∃ b w, u ++ e = b :: w := by
      cases hcons : u ++ e with
      | nil =>
        rw [← List.append_assoc, hcons] at hB
        exact absurd (hB Byte.lf rfl) (by decide)
      | cons b w => exact ⟨b, w, rfl⟩
    obtain ⟨b, w, hbw⟩ := hline
    rw [← List.append_assoc, hbw] at hB ⊢
    rw [hbw] at hue
    have hcut := Hdr.cut_cons l' (hB b rfl) (fun h => hue (List.mem_cons_of_mem b h))
    simp only [At, hs, after, InHdrSt.inc]
    exact ⟨hext, hnoins, b :: w, [], by simpa using hcut, htab ▸ Hdr.parsed_nil⟩

theorem delimitKey_put (b c : UInt8) (h : (if b = 58 then .stop true
    else if Byte.isHws b || Byte.isEol b then .fail true else .put (Byte.toLower b)) = Mark.put c) :
    c = Byte.toLower b := by
  split_ifs at h
  cases h
  rfl

theorem delimitVal_put (b c : UInt8)
    (h : (if Byte.isEol b then .stop false else .put b) = Mark.put c) :
    c = id b := by
  split_ifs at h
  cases h
  rfl

theorem key_goes (hs : v.state = .key) (hR : Running cfg.parseCookies B v t) :
    Goes cfg B (act cfg .key v t) := by
  obtain ⟨htext, hneed, hst, l, ht, hat⟩ := hR
  simp only [At, hs] at hat
  obtain ⟨hext, hnoins, l₀, ls, hcut, hparsed⟩ := hat
  obtain ⟨t', hw, ht'⟩ := Reader.ofScan_whole Okws.gobbleCrlf InHdr.needLF
    (fun v b => { v with needLF := b })
    (fun v r => if r = .ok then (.eof, { v with status := Http.ok }) else (r, v)) v ht
  have hread := read_gobble l
  rw [hneed] at hw ht'
  rcases hr : Okws.gobbleCrlf.read false l with ⟨r, need, l'⟩
  rw [hr] at hw ht' hread
  have hg : gobbleCrlf v t = _ := hw
  simp only [act, Reader.onStat_some hg]
  by_cases hok : r = .ok
  · -- an empty line
    subst hok
    refine ⟨.eof, { v with needLF := need, status := Http.ok }, t', rfl,
      (by rintro ⟨⟩), fun _ _ => ?_⟩
    have hblank : ∃ b bytes, l = b :: bytes ∧ Byte.isEol b = true := by
      obtain ⟨-, rfl | rfl⟩ := hread
      · exact ⟨Byte.lf, _, rfl, rfl⟩
      · exact ⟨Byte.cr, _, rfl, rfl⟩
    obtain ⟨b, bytes, rfl, hb⟩ := hblank
    refine ⟨hcut.complete.trans (Hdr.complete_blank bytes hb), l₀, ls, ?_, hparsed⟩
    rw [hcut.lines, Hdr.lines_blank bytes hb, List.append_nil]
  by_cases hno : r = .nomatch
  · subst hno
    obtain ⟨rfl, rfl⟩ := hread
    obtain ⟨r, v', t'', hword, hok, herr⟩ :=
      word_whole (v := { v with needLF := false }) (t := t') (l := l') false
      (fun v s => { v with key := some s }) delimitKey_put htext ht'
    refine ⟨r, v', t'', hword, fun hr => ?_, fun hr hs' => ?_⟩
    · obtain ⟨s, u, k, rfl, hscr, ht'', hall, hend⟩ := hok hr
      refine ⟨fun he => absurd (hext.symm.trans he) (by rintro ⟨⟩), fun _ =>
        ⟨hscr, rfl, hst, k, ht'', ?_⟩⟩
      have hplain : ∀ b ∈ u, b ≠ 58 ∧ Byte.isHws b = false ∧ Byte.isEol b = false := by
        intro b hb
        have hm := hall b hb
        split_ifs at hm with h₁ h₂
        simp only [Bool.or_eq_true, not_or, Bool.not_eq_true] at h₂
        exact ⟨h₁, h₂⟩
      obtain ⟨b, hl, hb⟩ | ⟨-, ⟨hb, -⟩ | ⟨b, -, hb⟩⟩ := hend
      · have hcolon : b = 58 := by
          by_contra hne
          rw [if_neg hne] at hb
          split at hb <;> cases hb
        subst hcolon
        simp only [At, hs, after, InHdrSt.inc]
        exact ⟨hext, hnoins,
          ⟨l₀, ls, u, by rw [List.nil_append, ← hl]; exact hcut, hplain, rfl, hparsed⟩⟩
      · cases hb
      · split_ifs at hb
        cases hb
    · obtain ⟨s, rfl⟩ := herr hr
      exact absurd hs' hst
  · refine ⟨r, { v with needLF := need }, t', by simp [hok, hno], fun h => absurd h hok, fun _ h =>
      absurd h hst⟩

theorem spc3_goes (hs : v.state = .spc3) (hR : Running cfg.parseCookies B v t) :
    Goes cfg B (act cfg .spc3 v t) := by
  obtain ⟨htext, hneed, hst, l, ht, hat⟩ := hR
  simp only [At, hs] at hat
  obtain ⟨hext, hnoins, ⟨l₀, ls, k, hcut, hopen⟩⟩ := hat
  obtain ⟨r, n, t', hw, ht'⟩ := skipHws_whole 0 v ht
  refine ⟨r, _, t', hw, fun _ => ⟨fun he => absurd (hext.symm.trans he) nofun, fun _ => ?_⟩,
    fun _ h => absurd h hst⟩
  obtain ⟨u, hu, hall⟩ := hws_eaten l
  refine ⟨htext, hneed, hst, _, ht', ?_⟩
  have hcut' : Hdr.Cut B (l₀ :: ls) (k ++ 58 :: (u ++ l.dropWhile Byte.isHws)) := by
    rw [← hu]
    exact hcut
  simp only [At, hs, after, InHdrSt.inc, hext, Bool.false_eq_true, if_false]
  exact ⟨u, hall, ⟨l₀, ls, k, hcut', hopen⟩, hnoins, List.dropWhile_idempotent _ _⟩

theorem value_goes (hs : v.state = .value) (hext : v.ext = false)
    (hR : Running cfg.parseCookies B v t) : Goes cfg B (act cfg .value v t) := by
  obtain ⟨htext, hneed, hst, l, ht, hat⟩ := hR
  simp only [At, hs, hext, Bool.false_eq_true, if_false] at hat
  obtain ⟨u, hu, ⟨l₀, ls, k, hcut, hplain, hkey, hparsed⟩, hnoins, hdrop⟩ := hat
  by_cases hc : (cfg.parseCookies && v.iscookie) = true
  · obtain ⟨hcookies, hcase⟩ := Bool.and_eq_true_iff.1 hc
    have hcookie : v.key = some Hdr.cookie := by
      rw [iscookie, hkey, beq_iff_eq, Option.map_some, List.map_map] at hcase
      rw [hkey]
      refine Eq.trans ?_ hcase
      congr 2
      funext b
      exact (Byte.toLower_toLower b).symm
    refine ⟨.ok, { v with noins := true, ext := true }, t, by simp only [act, if_pos hc],
      fun _ => ⟨fun _ => ⟨htext, hneed, hst, l, ht, ?_⟩, by rintro ⟨⟩⟩, fun h => absurd rfl h⟩
    simp only [At, hs, if_true]
    exact ⟨u, hu, ⟨l₀, ls, k, hcut, hplain, hkey, hparsed⟩, trivial, hcookie, hcookies⟩
  · obtain ⟨r, v', t', hword, hok, herr⟩ := word_whole (v := v) (t := t) (l := l) false
      (fun v s => { v with val := some s }) delimitVal_put htext ht
    refine ⟨r, v', t', by simp only [act, if_neg hc]; exact hword, fun hr => ?_, fun hr hs' => ?_⟩
    · obtain ⟨s, w, l', rfl, hscr, ht', hall, hend⟩ := hok hr
      refine ⟨fun he => absurd (hext.symm.trans he) (by rintro ⟨⟩), fun _ =>
        ⟨hscr, hneed, hst, l', ht', ?_⟩⟩
      have hw : ∀ b ∈ w, Byte.isEol b = false := by
        intro b hb
        have hm := hall b hb
        split_ifs at hm with h
        simpa using h
      have hl : l = w ++ l' := by
        obtain ⟨b, -, hb⟩ | ⟨hl, -⟩ := hend
        · split_ifs at hb
          cases hb
        · exact hl
      have hwd : (u ++ w).dropWhile Byte.isHws = w := by
        rw [List.dropWhile_append_of_pos (List.all_eq_true.1 hu)]
        cases w with
        | nil => rfl
        | cons b w =>
          refine List.dropWhile_cons_of_neg fun hb => ?_
          rw [hl, List.cons_append, List.dropWhile_cons_of_pos hb] at hdrop
          have hlen := congrArg List.length hdrop
          have hle := (List.dropWhile_sublist (p := Byte.isHws) (l := w ++ l')).length_le
          simp only [List.length_cons] at hlen
          omega
      have heol : ∀ b ∈ u ++ w, Byte.isEol b = false := by
        intro b hb
        obtain hb | hb := List.mem_append.1 hb
        · exact lf_hws hu b hb
        · exact hw b hb
      simp only [At, hs, after, InHdrSt.inc, hnoins, Bool.false_eq_true, if_false, List.map_id]
      refine ⟨hext, u ++ w, lf_of_eol heol, ⟨l₀, ls, k, ?_, hplain, hkey, hparsed⟩,
        fun hcookies hcookie => ?_, heol, by rw [hwd]⟩
      · rw [hl] at hcut
        simpa using hcut
      · refine hc (Bool.and_eq_true_iff.2 ⟨hcookies, ?_⟩)
        rw [iscookie, hcookie]
        rfl
    · obtain ⟨s, rfl⟩ := herr hr
      exact absurd hs' hst

theorem eol2a_goes (hs : v.state = .eol2a) (hR : Running cfg.parseCookies B v t) :
    Goes cfg B (act cfg .eol2a v t) := by
  obtain ⟨htext, hneed, hst, l, ht, hat⟩ := hR
  simp only [At, hs] at hat
  obtain ⟨hext, u, hu, ⟨l₀, ls, k, hcut, hplain, hkey, hparsed⟩, hval⟩ := hat
  have hk : 58 ∉ k := fun h => (hplain 58 h).1 rfl
  have hline : ∃ b w, k ++ 58 :: u = b :: w ∧ Byte.isEol b = false ∧ Byte.lf ∉ w := by
    cases k with
    | nil => exact ⟨58, u, rfl, rfl, hu⟩
    | cons b k =>
      refine ⟨b, k ++ 58 :: u, rfl, (hplain b List.mem_cons_self).2.2, ?_⟩
      have hklf := lf_of_eol fun c hc => (hplain c (List.mem_cons_of_mem b hc)).2.2
      simp [hklf, hu, show Byte.lf ≠ 58 by decide]
  obtain ⟨b, w, hbw, hb, hw⟩ := hline
  have hws : ∀ c ∈ k, Byte.isHws c = false := fun c hc => (hplain c hc).2.1
  have hcut' : Hdr.Cut B (l₀ :: ls) (b :: w ++ l) := by
    rw [← hbw]
    simpa using hcut
  cases hn : v.noins with
  | true =>
    simp only [hn, if_true] at hval
    obtain ⟨hcookie, hcookies⟩ := hval
    rw [hkey, Option.some.injEq] at hcookie
    refine ⟨.ok, { v with noins := false, key := none, val := none }, t, by simp [act, hn],
      fun _ => ⟨fun he => absurd (hext.symm.trans he) nofun, fun _ =>
        ⟨htext, hneed, hst, l, ht, ?_⟩⟩,
      fun h => absurd rfl h⟩
    simp only [At, hs, after, InHdrSt.inc]
    refine ⟨hext, trivial, l₀, ls, b, w, hcut', hb, hw, fun e _ => ?_⟩
    rw [← hbw, List.append_assoc]
    exact hparsed.cookie hk hws hcookie hcookies (u ++ e)
  | false =>
    simp only [hn, Bool.false_eq_true, if_false] at hval
    obtain ⟨hcookie, hraw, hval⟩ := hval
    rw [hkey, ne_eq, Option.some.injEq] at hcookie
    refine ⟨.ok, { v with tab := v.tab.insert v.key v.val true true, key := none, val := none }, t,
      by simp [act, hn, hkey],
      fun _ => ⟨fun he => absurd (hext.symm.trans he) nofun, fun _ =>
        ⟨htext, hneed, hst, l, ht, ?_⟩⟩,
      fun h => absurd rfl h⟩
    simp only [At, hs, after, InHdrSt.inc]
    refine ⟨hext, hn, l₀, ls, b, w, hcut', hb, hw, fun e he => ?_⟩
    rw [← hbw, List.append_assoc, hkey, hval]
    exact hparsed.insert hk hws hcookie hraw he

theorem eol2b_goes (hs : v.state = .eol2b) (hR : Running cfg.parseCookies B v t) :
    Goes cfg B (act cfg .eol2b v t) := by
  obtain ⟨htext, hneed, hst, l, ht, hat⟩ := hR
  simp only [At, hs] at hat
  obtain ⟨hext, hnoins, l₀, ls, b, w, hcut, hb, hw, hparsed⟩ := hat
  obtain ⟨r, need, t', hact, hok⟩ := requireCrlf_whole hneed ht
  refine ⟨r, _, t', hact, fun hr => ⟨fun he => absurd (hext.symm.trans he) nofun, fun _ => ?_⟩,
    fun _ h => absurd h hst⟩
  obtain ⟨rfl, l', ht', e, he, rfl⟩ := hok hr
  refine ⟨htext, rfl, hst, l', ht', ?_⟩
  have hwe : Byte.lf ∉ w ++ e := by
    obtain rfl | rfl := he
    · simpa using hw
    · simp [hw, show Byte.lf ≠ Byte.cr by decide]
  simp only [At, hs, after]
  refine ⟨hext, hnoins, l₀, ls ++ [b :: w ++ e], ?_, hparsed e he⟩
  rw [← List.append_assoc] at hcut
  exact hcut.trans (Hdr.cut_cons l' hb hwe)

variable (cfg) in
theorem act_goes (hB : ∀ b, B.head? = some b → Byte.isEol b = false) (hext : v.ext = false)
    (hR : Running cfg.parseCookies B v t) : Goes cfg B (act cfg v.state v t) := by
  by_cases hq : 8 ≤ rank v.state
  · exact first_goes hq hR
  · cases hs : v.state <;> rw [hs] at hq
    case eol1 => exact eol1_goes hB hs hext hR
    case key => exact key_goes hs hR
    case spc3 => exact spc3_goes hs hR
    case value => exact value_goes hs hext hR
    case eol2a => exact eol2a_goes hs hR
    case eol2b => exact eol2b_goes hs hR
    case beyond => exact ⟨.parseErr, v, t, rfl, nofun, fun _ h => absurd h hR.status⟩
    all_goals simp [rank] at hq

theorem finish_ok {r : Stat} (h : (v.finish cfg r).status = Http.ok) : v.status = Http.ok := by
  simp only [finish] at h
  split_ifs at h <;> first | exact h | exact absurd h (by decide)

def Inner (v : InHdr) : Prop := v.ext = true → v.state = .uridat ∨ v.state = .value

variable (cfg) in
theorem step_running (hB : ∀ b, B.head? = some b → Byte.isEol b = false)
    (hR : Running cfg.parseCookies B v t) (hI : Inner v) :
    match (machine cfg tails).step (v, (), t) with
    | .next (v', _, t') => Running cfg.parseCookies B v' t' ∧ Inner v'
    | .wait _ => False
    | .stop o =>
      o.status = Http.ok → Accepted cfg.parseCookies B o.tab := by
  cases hext : v.ext with
  | false =>
    rw [step_act hext]
    obtain ⟨r, v', t', hact, hok, hstop⟩ := act_goes cfg hB hext hR
    obtain ⟨hstate, hstart⟩ := act_frame hact
    rw [hact]
    obtain ⟨hn, -⟩ | ⟨hr, he, ho⟩ | ⟨hr, he, ho⟩ | ⟨r', hr, hne, ho⟩ :=
      outcome_cases cfg (n := ()) (some r) v' t'
    · cases hn
    · cases hr
      rw [ho]
      obtain ⟨h₁, h₂, h₃, l, ht, hat⟩ := (hok rfl).1 he
      refine ⟨⟨h₁, h₂, h₃, l, ht.canRead, hat⟩, fun _ => ?_⟩
      rw [hstate]
      obtain hkeep | ⟨hq, -⟩ := hstart
      · cases (hext.symm.trans hkeep.symm).trans he
      · exact hq
    · cases hr
      rw [ho]
      exact ⟨(hok rfl).2 he, fun h => absurd (he.symm.trans h) nofun⟩
    · cases hr
      rw [ho]
      exact fun h => hstop hne (finish_ok h)
  | true =>
    obtain ⟨htext, hneed, hst, l, ht, hat⟩ := hR
    obtain ⟨t', hscan, ht'⟩ := ht.scan (Cgi.tailScanner (v.state = .uridat)) ()
    rw [step_tail hext hscan]
    obtain ⟨w, hw, hlf⟩ := read_tail (v.state = .uridat) l
    refine ⟨⟨htext, hneed, hst, _, ht'.canRead, ?_⟩, nofun⟩
    obtain hs | hs := hI hext
    · rw [at_first (by simp [hs, rank])] at hat
      obtain ⟨htab, hnoins, u, rfl, hu⟩ := hat
      rw [at_first (by simp [hs, InHdrSt.inc, rank])]
      refine ⟨htab, hnoins, u ++ w, ?_, by simp [hu, hlf]⟩
      rw [List.append_assoc, ← hw]
    · simp only [At, hs, hext, if_true] at hat
      obtain ⟨u, hu, ⟨l₀, ls, k, hcut, hopen⟩, hnoins, hkey⟩ := hat
      simp only [At, hs, InHdrSt.inc, hnoins, if_true]
      refine ⟨trivial, u ++ w, ?_, ⟨l₀, ls, k, ?_, hopen⟩, hkey⟩
      · simp [lf_of_eol (lf_hws hu), hlf]
      · rw [hs] at hw
        rw [List.append_assoc, ← hw]
        exact hcut

end Rounds

theorem ends_parsed {cfg : InHdrConfig} {ccfg : CgiConfig} {cap cap₂ : Nat} {B : Str} {o : InHdrOut}
    (hcap : 0 < cap₂) (hB : ∀ b, B.head? = some b → Byte.isEol b = false)
    (h : (machine cfg (cgis ccfg)).Ends (start cap cap₂ (Abuf.whole B)) o)
      (hok : o.status = Http.ok) :
    Accepted cfg.parseCookies B o.tab := by
  obtain ⟨htails, -⟩ := (stutters cfg ccfg).ends (start_skips cap hcap (Abuf.whole B)) h
  obtain ⟨u, hu, hstop⟩ := htails.last
  have hstart : Running cfg.parseCookies B (start' cap (Abuf.whole B)).1
      (start' cap (Abuf.whole B)).2.2 :=
    ⟨rfl, rfl, show Http.badRequest ≠ Http.ok by decide, B, Tape.whole_start B, rfl, rfl, [],
      rfl, by simp⟩
  have hinv : Running cfg.parseCookies B u.1 u.2.2 ∧ Inner u.1 := by
    refine hu.invariant (I := fun w => Running cfg.parseCookies B w.1 w.2.2 ∧ Inner w.1)
      (fun {w w'} hw hs => ?_)
      (fun {w w'} hw hs => ?_) ⟨hstart, nofun⟩
    · have hstep := step_running cfg hB hw.1 hw.2
      rw [show (machine cfg tails).step (w.1, (), w.2.2) = _ from hs] at hstep
      exact hstep
    · have hstep := step_running cfg hB hw.1 hw.2
      rw [show (machine cfg tails).step (w.1, (), w.2.2) = _ from hs] at hstep
      exact hstep.elim
  have hlast := step_running cfg hB hinv.1 hinv.2
  rw [show (machine cfg tails).step (u.1, (), u.2.2) = _ from hstop] at hlast
  exact hlast hok

end InHdr

end Okws
