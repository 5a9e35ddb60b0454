import Mathlib.Data.List.Forall2
import Okws.Trust

namespace Okws

open Lib

/-- The same value up to the case of letters; that of `okd` is read up to its NUL. -/
def SameValue (w v : Str) : Prop := (cstr w).map Byte.toLower = v.map Byte.toLower

/-- `okd` has every name that the service has, with the same values. -/
def Agrees (okd svc : PairTab) : Prop :=
  ∀ q vs, svc.lookup q = some vs → ∃ ws, okd.lookup q = some ws ∧ List.Forall₂ SameValue ws vs

/-- What `okd` finds agrees with `svc`, whatever its fresh memory holds. -/
def OkdAgrees (kcfg : CloneConfig) (B : Str) (svc : PairTab) : Prop :=
  ∀ mem, ∃ d, (Clone.delimitHeaders { kcfg with mem := mem } B).1 = some d ∧ Agrees d.headers svc

/-- A line without a NUL, whose value is empty or follows exactly one blank. -/
structure Hdr.OneBlank (l : Str) : Prop where
  nul : 0 ∉ l
  blank : (Hdr.field l).2.drop 1 = (Hdr.field l).2.dropWhile Byte.isHws

/-- The method consists of capital letters, and the lines that the service stores have one blank. -/
def Readable (cookies : Bool) (B : Str) : Prop :=
  ∃ l₀ ls, Hdr.lines none B = l₀ :: ls ∧ (l₀.dropWhile Reqline.isUpper).head? = some Byte.sp ∧
    ∀ l ∈ ls, Hdr.stored cookies l = true → (Hdr.field l).1 ≠ [] → Hdr.OneBlank l

theorem agrees_ofList {fs gs : List (Str × Str)} :
    Agrees (.ofList fs) (.ofList gs) ↔ ∀ q, q ≠ [] → PairTab.under q gs ≠ [] →
      List.Forall₂ SameValue (PairTab.under q fs) (PairTab.under q gs) := by
  constructor
  · intro h q hq hg
    obtain ⟨ws, hws, hall⟩ := h q _ (by rw [PairTab.ofList_lookup, if_neg (by simp [hq, hg])])
    rw [PairTab.ofList_lookup] at hws
    split at hws
    · cases hws
    · rwa [Option.some.inj hws]
  · intro h q vs hvs
    rw [PairTab.ofList_lookup] at hvs
    split at hvs
    · cases hvs
    · next hno =>
      obtain ⟨hq, hg⟩ := not_or.1 hno
      obtain rfl := Option.some.inj hvs
      have hall := h q hq hg
      have hf : PairTab.under q fs ≠ [] := by
        intro hf
        rw [hf, List.forall₂_nil_left_iff] at hall
        exact hg hall
      exact ⟨_, by rw [PairTab.ofList_lookup, if_neg (by simp [hq, hf])], hall⟩

namespace Hdr

variable {cfg : CloneConfig} {l l₀ k u q v : Str}

/-- What `okd` makes of a line. -/
def okdField (cfg : CloneConfig) (l : Str) : Option (Str × Str) :=
  Clone.splitHeader cfg (tolowerS cfg.mem (l ++ crlf))

def okdVal (cfg : CloneConfig) (l : Str) : Str :=
  stripNewlines cfg.mem ((tolowerS cfg.mem ((l.dropWhile (· ≠ 58)).tail ++ crlf)).drop 1)

theorem foldl_addHeader (ls : List Str) : (ls.map fun l => tolowerS cfg.mem (l ++ crlf)).foldl
    (Clone.addHeader cfg) .empty = .ofList (ls.filterMap (okdField cfg)) := by
  induction ls using List.reverseRecOn with
  | nil => rfl
  | append_singleton ls l ih =>
    rw [List.map_append, List.foldl_append, ih, List.filterMap_append]
    cases hl : Clone.splitHeader cfg (tolowerS cfg.mem (l ++ crlf)) <;>
      simp [okdField, Clone.addHeader, PairTab.ofList, hl]

theorem okdField_colon (hnul : 0 ∉ k) (hk : 58 ∉ k) :
    okdField cfg (k ++ 58 :: u) = some (k.map Byte.toLower, okdVal cfg (k ++ 58 :: u)) := by
  have hkd : ∀ b ∈ k, decide (b ≠ 58) = true := by
    intro b hb
    simp only [decide_eq_true_eq]
    exact fun he => hk (he ▸ hb)
  have hval : (k ++ 58 :: u).dropWhile (· ≠ 58) = 58 :: u := by
    rw [List.dropWhile_append_of_pos hkd]
    simp
  rw [okdField, splitHeader_colon hnul hk, okdVal, hval]
  rfl

theorem okdField_name (h : 58 ∈ l) (hnul : 0 ∉ (field l).1) :
    okdField cfg l = some ((field l).1, okdVal cfg l) := by
  obtain ⟨k, u, rfl, hk⟩ := List.eq_append_cons_of_mem h
  rw [field_eq hk] at hnul ⊢
  exact okdField_colon (fun h0 => hnul (List.mem_map.2 ⟨0, h0, rfl⟩)) hk

theorem splitHeader_begins {p x : Str} {f : Str × Str} (hnul : 0 ∉ p) (hcolon : 58 ∉ p)
    (h : Clone.splitHeader cfg (p ++ x) = some f) : p <+: f.1 := by
  have hp : ∀ b ∈ p, decide (b ≠ 0) = true := by
    intro b hb
    simp only [decide_eq_true_eq]
    exact fun he => hnul (he ▸ hb)
  have hp' : ∀ b ∈ p, decide (b ≠ 58) = true := by
    intro b hb
    simp only [decide_eq_true_eq]
    exact fun he => hcolon (he ▸ hb)
  have hcstr : cstr (p ++ x) = p ++ cstr x := List.takeWhile_append_of_pos hp
  rw [Clone.splitHeader, hcstr, List.takeWhile_append_of_pos hp'] at h
  split at h
  · cases h
  · cases h
    rw [List.length_append, List.take_length_add_append]
    exact List.prefix_append ..

theorem tolowerS_nul {p : Str} (s : Str) (h : 0 ∉ p) :
    tolowerS (fun _ => 120) (p ++ 0 :: s) =
      p.map Byte.toLower ++ List.replicate (s.length + 1) 120 := by
  rw [tolowerS_append _ _ h]
  simp [tolowerS, cstr, fresh, List.map_const']

theorem okdField_nul (h0 : 0 ∈ (field l).1) :
    okdField { cfg with mem := fun _ => 120 } l = none := by
  obtain ⟨b, hb, hlow⟩ := List.mem_map.1 h0
  obtain rfl := toLower_nul b hlow
  obtain ⟨p, s, hp, hnul⟩ := List.eq_append_cons_of_mem hb
  have hcolon : 58 ∉ p := by
    intro hmem
    have hne := List.all_eq_true.1 List.all_takeWhile 58 (show 58 ∈ l.takeWhile (· ≠ 58) by
      rw [hp]
      exact List.mem_append_left _ hmem)
    simp at hne
  have hl : l ++ crlf = p ++ 0 :: (s ++ l.dropWhile (· ≠ 58) ++ crlf) := by
    have hsplit := List.takeWhile_append_dropWhile (p := fun b : UInt8 => decide (b ≠ 58)) (l := l)
    rw [hp] at hsplit
    calc l ++ crlf = p ++ 0 :: s ++ l.dropWhile (· ≠ 58) ++ crlf := by rw [hsplit]
      _ = _ := by simp
  have hplain : ∀ c, c = 0 ∨ c = 58 → c ∉ tolowerS (fun _ => 120) (l ++ crlf) := by
    intro c hc
    rw [hl, tolowerS_nul _ hnul, List.mem_append, not_or]
    refine ⟨?_, fun hmem => ?_⟩
    · obtain rfl | rfl := hc
      · exact not_mem_map_toLower toLower_nul hnul
      · exact not_mem_map_toLower toLower_colon hcolon
    · obtain rfl := List.eq_of_mem_replicate hmem
      revert hc
      decide
  have htake : (tolowerS (fun _ => 120) (l ++ crlf)).takeWhile (· ≠ 58) =
      tolowerS (fun _ => 120) (l ++ crlf) := by
    refine List.takeWhile_eq_self_iff.2 fun b hb => ?_
    simp only [decide_eq_true_eq]
    exact fun he => hplain 58 (.inr rfl) (he ▸ hb)
  rw [okdField, Clone.splitHeader, cstr_eq (hplain 0 (.inl rfl)), htake]
  exact if_pos rfl

theorem okdField_reqline (h : (l₀.dropWhile Reqline.isUpper).head? = some Byte.sp)
    {f : Str × Str} (hf : okdField cfg l₀ = some f) : Byte.sp ∈ f.1 := by
  obtain ⟨r, hr⟩ : ∃ r, l₀.dropWhile Reqline.isUpper = Byte.sp :: r := by
    cases hd : l₀.dropWhile Reqline.isUpper with
    | nil => simp [hd] at h
    | cons b r => exact ⟨r, by simpa [hd] using h⟩
  have hl : l₀ ++ crlf = (l₀.takeWhile Reqline.isUpper ++ [Byte.sp]) ++ (r ++ crlf) := by
    conv_lhs => rw [← List.takeWhile_append_dropWhile (p := Reqline.isUpper) (l := l₀), hr]
    simp
  have hplain : ∀ b ∈ l₀.takeWhile Reqline.isUpper ++ [Byte.sp], b ≠ 0 ∧ b ≠ 58 := by
    intro b hb
    obtain hb | hb := List.mem_append.1 hb
    · have hup := List.all_eq_true.1 List.all_takeWhile b hb
      constructor <;> rintro rfl <;> cases hup
    · obtain rfl := List.mem_singleton.1 hb
      decide
  have hnul : 0 ∉ (l₀.takeWhile Reqline.isUpper ++ [Byte.sp]).map Byte.toLower :=
    not_mem_map_toLower toLower_nul fun h0 => (hplain 0 h0).1 rfl
  have hcolon : 58 ∉ (l₀.takeWhile Reqline.isUpper ++ [Byte.sp]).map Byte.toLower :=
    not_mem_map_toLower toLower_colon fun h58 => (hplain 58 h58).2 rfl
  rw [okdField, hl, tolowerS_append _ _ fun h0 => (hplain 0 h0).1 rfl] at hf
  refine (splitHeader_begins hnul hcolon hf).subset (List.mem_map.2 ⟨Byte.sp, by simp, rfl⟩)

variable {cookies : Bool} {ls : List Str}

theorem cstr_okdVal (h : Proper l) (hnul : 0 ∉ l) :
    cstr (okdVal cfg l) = ((field l).2.drop 1).map Byte.toLower := by
  have htail : 0 ∉ (l.dropWhile (· ≠ 58)).tail ++ crlf := by
    rw [List.mem_append]
    rintro (h0 | h0)
    · exact hnul ((List.dropWhile_sublist _).subset (List.mem_of_mem_tail h0))
    · revert h0
      decide
  rw [← cstr_okdValue h hnul, okdVal, tolowerS_eq _ htail]
  rfl

theorem sameValue_iff (h : Proper l) (hnul : 0 ∉ l) :
    SameValue (okdVal cfg l) ((field l).2.dropWhile Byte.isHws) ↔
      (field l).2.drop 1 = (field l).2.dropWhile Byte.isHws := by
  have hlow (s : Str) : (s.map Byte.toLower).map Byte.toLower = s.map Byte.toLower := by
    rw [List.map_map]
    exact List.map_congr_left fun b _ => Byte.toLower_toLower b
  rw [SameValue, cstr_okdVal h hnul, hlow]
  constructor
  · intro he
    have hlen := congrArg List.length he
    simp only [List.length_map] at hlen
    exact (List.suffix_of_suffix_length_le (List.drop_suffix 1 _) (List.dropWhile_suffix _)
      hlen.le).eq_of_length hlen
  · exact congrArg (List.map Byte.toLower)

theorem stripNewlines_plain (mem : Nat → UInt8) {s : Str} (h : ∀ b ∈ s, Byte.isEol b = false) :
    stripNewlines mem s = s := by
  have hall : s.takeWhile (!Byte.isEol ·) = s :=
    List.takeWhile_eq_self_iff.2 fun b hb => by simp [h b hb]
  simp only [stripNewlines, hall, if_true]

theorem not_sameValue (h : Proper l) (hnul : 0 ∉ (field l).1) (h0 : 0 ∈ l) :
    ¬ SameValue (okdVal { cfg with mem := fun _ => 120 } l)
      ((field l).2.dropWhile Byte.isHws) := by
  obtain ⟨k, raw, e, rfl, hk, hraw, he⟩ := h
  rw [field_proper hk hraw he] at hnul ⊢
  have hkd : ∀ b ∈ k, decide (b ≠ 58) = true := by
    intro b hb
    simp only [decide_eq_true_eq]
    exact fun hb' => hk (hb' ▸ hb)
  have hval : (k ++ 58 :: (raw ++ e)).dropWhile (· ≠ 58) = 58 :: (raw ++ e) := by
    rw [List.dropWhile_append_of_pos hkd]
    simp
  have hmem : 0 ∈ raw := by
    have hk0 : 0 ∉ k := fun hmem => hnul (List.mem_map.2 ⟨0, hmem, rfl⟩)
    obtain rfl | rfl := he <;> simpa [hk0, Byte.cr] using h0
  obtain ⟨p, s, rfl, hp⟩ := List.eq_append_cons_of_mem hmem
  have hlow : tolowerS (fun _ => 120) (p ++ 0 :: s ++ e ++ crlf) =
      p.map Byte.toLower ++ List.replicate ((s ++ e ++ crlf).length + 1) 120 := by
    rw [← tolowerS_nul _ hp]
    simp
  have hplain : ∀ b ∈ (tolowerS (fun _ => 120) (p ++ 0 :: s ++ e ++ crlf)).drop 1,
      b ≠ 0 ∧ Byte.isEol b = false := by
    intro b hb
    have hb' := List.mem_of_mem_drop hb
    rw [hlow, List.mem_append] at hb'
    obtain hb' | hb' := hb'
    · obtain ⟨c, hc, rfl⟩ := List.mem_map.1 hb'
      refine ⟨fun hz => hp (toLower_nul c hz ▸ hc), ?_⟩
      rw [isEol_toLower]
      exact hraw c (List.mem_append_left _ hc)
    · rw [List.eq_of_mem_replicate hb']
      decide
  have hstrip : okdVal { cfg with mem := fun _ => 120 } (k ++ 58 :: (p ++ 0 :: s ++ e)) =
      (tolowerS (fun _ => 120) (p ++ 0 :: s ++ e ++ crlf)).drop 1 := by
    rw [okdVal, hval, List.tail_cons]
    exact stripNewlines_plain _ fun b hb => (hplain b hb).2
  intro hsame
  have hlen := congrArg List.length hsame
  rw [hstrip, cstr_eq fun hz => (hplain 0 hz).1 rfl, hlow] at hlen
  have hle := (List.dropWhile_sublist (p := Byte.isHws) (l := p ++ 0 :: s)).length_le
  simp only [List.length_map, List.length_drop, List.length_append, List.length_replicate,
    List.length_cons, crlf, List.length_nil] at hlen hle
  omega

theorem under_stored (q : Str) : PairTab.under q ((ls.filter (stored cookies)).map fun l =>
    ((field l).1, (field l).2.dropWhile Byte.isHws)) =
      (ls.filter fun l => stored cookies l && decide ((field l).1 = q)).map fun l =>
        (field l).2.dropWhile Byte.isHws := by
  rw [PairTab.under, List.filter_map, List.map_map, List.filter_filter]
  simp only [Function.comp_def, Bool.and_comm]

theorem under_okd (hl : ∀ l ∈ ls, okdField cfg l = some ((field l).1, okdVal cfg l) ∨
    okdField cfg l = none ∧ (field l).1 ≠ q) :
    PairTab.under q (ls.filterMap (okdField cfg)) =
      (ls.filter fun l => (field l).1 = q).map (okdVal cfg) := by
  induction ls with
  | nil => rfl
  | cons l ls ih =>
    have htail := ih fun l' hl' => hl l' (List.mem_cons_of_mem l hl')
    unfold PairTab.under at htail ⊢
    obtain h | ⟨h, hne⟩ := hl l List.mem_cons_self
    · by_cases hq : (field l).1 = q <;> simp [h, hq, htail]
    · simp [h, hne, htail]

theorem under_reqline (h : ∀ f, okdField cfg l₀ = some f → f.1 ≠ q) :
    PairTab.under q ((l₀ :: ls).filterMap (okdField cfg)) =
      PairTab.under q (ls.filterMap (okdField cfg)) := by
  cases hf : okdField cfg l₀ with
  | none => rw [List.filterMap_cons, hf]
  | some f => simp [hf, PairTab.under, h f hf]

theorem forall₂_under (hl : ∀ l ∈ ls, okdField cfg l = some ((field l).1, okdVal cfg l) ∨
      okdField cfg l = none ∧ (field l).1 ≠ q) (h₀ : ∀ f, okdField cfg l₀ = some f → f.1 ≠ q)
    (hq : ∀ l, (field l).1 = q → stored cookies l = true) :
    List.Forall₂ SameValue (PairTab.under q ((l₀ :: ls).filterMap (okdField cfg)))
      (PairTab.under q ((ls.filter (stored cookies)).map fun l =>
        ((field l).1, (field l).2.dropWhile Byte.isHws))) ↔
    ∀ l ∈ ls, (field l).1 = q →
      SameValue (okdVal cfg l) ((field l).2.dropWhile Byte.isHws) := by
  have hfilter : (ls.filter fun l => stored cookies l && decide ((field l).1 = q)) =
      ls.filter fun l => (field l).1 = q := by
    refine List.filter_congr fun l _ => ?_
    by_cases hn : (field l).1 = q
    · simp [hn, hq l hn]
    · simp [hn]
  rw [under_reqline h₀, under_okd hl, under_stored, hfilter, List.forall₂_map_left_iff,
    List.forall₂_map_right_iff, List.forall₂_same]
  simp

theorem reqline_crlf : ((l₀ ++ crlf).dropWhile Reqline.isUpper).head? = some Byte.sp ↔
    (l₀.dropWhile Reqline.isUpper).head? = some Byte.sp := by
  rw [List.dropWhile_append]
  cases l₀.dropWhile Reqline.isUpper with
  | nil => exact iff_of_false (by decide) (by simp)
  | cons b r => simp

variable (cfg) in
theorem delimitHeaders_fields {B : Str} (hlines : lines none B = l₀ :: ls)
    (hsp : (l₀.dropWhile Reqline.isUpper).head? = some Byte.sp) (hc : complete true B = true) :
    ∃ d, Clone.delimitHeaders cfg B = (some d, Http.ok) ∧
      d.headers = .ofList ((l₀ :: ls).filterMap (okdField cfg)) := by
  have hreq := scanLines_reqline cfg none {} B (fun l h => by cases h)
  have hdone : (Clone.scanLines cfg none {} B).done = complete true B :=
    scanLines_complete B (fun l h => by cases h) rfl
  have huri : (Reqline.uri (l₀ ++ crlf)).any Reqline.isEnd = true := by
    obtain ⟨r, hr⟩ : ∃ r, l₀.dropWhile Reqline.isUpper = r ∧ r ≠ [] :=
      ⟨_, rfl, by rintro h; simp [h] at hsp⟩
    rw [Reqline.uri, List.dropWhile_append, hr.1, if_neg (by simpa using hr.2),
      List.dropWhile_append]
    split
    · decide
    · simp [Reqline.isEnd, crlf, Byte.isEol]
  have hloop := Reqline.Complete.loop ⟨reqline_crlf.2 hsp, huri⟩
  rw [hlines] at hreq
  have hsome : ∃ d, Clone.delimitHeaders cfg B = (some d, Http.ok) := by
    simp only [Clone.delimitHeaders, hreq, hdone, parseReqline]
    simp [hloop, hc]
  obtain ⟨d, hd⟩ := hsome
  refine ⟨d, hd, ?_⟩
  rw [delimitHeaders_tab hd, hlines, foldl_addHeader]

end Hdr

section

variable {kcfg : CloneConfig} {icfg : InHdrConfig} {ccfg : CgiConfig} {cap cap₂ : Nat} {B : Str}
  {o : InHdrOut}

theorem oneBlank_of_agrees {cookies : Bool} {l₀ : Str} {ls : List Str} {t : PairTab}
    (hsp : (l₀.dropWhile Reqline.isUpper).head? = some Byte.sp) (hp : Hdr.Parsed cookies ls t)
    (h : Agrees
      (.ofList ((l₀ :: ls).filterMap (Hdr.okdField { kcfg with mem := fun _ => 120 }))) t) :
    ∀ l ∈ ls, Hdr.stored cookies l = true → (Hdr.field l).1 ≠ [] → Hdr.OneBlank l := by
  intro l hl hs hname
  rw [hp.tab, agrees_ofList] at h
  have hstored (l' : Str) (hl' : (Hdr.field l').1 = (Hdr.field l).1) :
      Hdr.stored cookies l' = true := by
    rw [Hdr.stored, hl']
    exact hs
  have hsvc : PairTab.under (Hdr.field l).1 ((ls.filter (Hdr.stored cookies)).map fun l =>
      ((Hdr.field l).1, (Hdr.field l).2.dropWhile Byte.isHws)) ≠ [] := by
    rw [Hdr.under_stored, Ne, List.map_eq_nil_iff, List.filter_eq_nil_iff]
    exact fun hall => hall l hl (by simp [hs])
  have hall := h _ hname hsvc
  have h₀ (f : Str × Str) (hf : Hdr.okdField { kcfg with mem := fun _ => 120 } l₀ = some f) :
      f.1 ≠ (Hdr.field l).1 := fun he =>
    hp.name l hl (he ▸ Hdr.okdField_reqline hsp hf)
  have hlines (hnul : 0 ∉ (Hdr.field l).1) : ∀ l' ∈ ls,
      Hdr.okdField { kcfg with mem := fun _ => 120 } l' =
        some ((Hdr.field l').1, Hdr.okdVal { kcfg with mem := fun _ => 120 } l') ∨
      Hdr.okdField { kcfg with mem := fun _ => 120 } l' = none ∧
        (Hdr.field l').1 ≠ (Hdr.field l).1 := by
    intro l' hl'
    by_cases h0 : 0 ∈ (Hdr.field l').1
    · exact .inr ⟨Hdr.okdField_nul h0, fun he => hnul (he ▸ h0)⟩
    · exact .inl (Hdr.okdField_name (hp.colon l' hl') h0)
  have hnul : 0 ∉ (Hdr.field l).1 := by
    intro h0
    have hnone : PairTab.under (Hdr.field l).1
        ((l₀ :: ls).filterMap (Hdr.okdField { kcfg with mem := fun _ => 120 })) = [] := by
      rw [Hdr.under_reqline h₀, PairTab.under, List.map_eq_nil_iff, List.filter_eq_nil_iff]
      intro f hf
      obtain ⟨l', hl', hf⟩ := List.mem_filterMap.1 hf
      by_cases h0' : 0 ∈ (Hdr.field l').1
      · cases (Hdr.okdField_nul h0').symm.trans hf
      · cases (Hdr.okdField_name (hp.colon l' hl') h0').symm.trans hf
        simpa using fun he : (Hdr.field l').1 = _ => h0' (he ▸ h0)
    rw [hnone, List.forall₂_nil_left_iff] at hall
    exact hsvc hall
  have hsame := (Hdr.forall₂_under (hlines hnul) h₀ hstored).1 hall l hl rfl
  have hproper := hp.proper l hl hs
  have hl0 : 0 ∉ l := fun h0 => Hdr.not_sameValue hproper hnul h0 hsame
  exact ⟨hl0, (Hdr.sameValue_iff hproper hl0).1 hsame⟩

theorem agrees_of_oneBlank {cookies : Bool} {l₀ : Str} {ls : List Str} {t : PairTab}
    (hsp : (l₀.dropWhile Reqline.isUpper).head? = some Byte.sp) (hp : Hdr.Parsed cookies ls t)
    (h : ∀ l ∈ ls, Hdr.stored cookies l = true → (Hdr.field l).1 ≠ [] → Hdr.OneBlank l) :
    Agrees (.ofList ((l₀ :: ls).filterMap (Hdr.okdField kcfg))) t := by
  rw [hp.tab, agrees_ofList]
  intro q hq hsvc
  rw [Hdr.under_stored, Ne, List.map_eq_nil_iff, List.filter_eq_nil_iff, not_forall] at hsvc
  obtain ⟨l, hsvc⟩ := hsvc
  rw [Classical.not_imp, not_not, Bool.and_eq_true, decide_eq_true_eq] at hsvc
  obtain ⟨hl, hs, rfl⟩ := hsvc
  have hstored (l' : Str) (hl' : (Hdr.field l').1 = (Hdr.field l).1) :
      Hdr.stored cookies l' = true := by
    rw [Hdr.stored, hl']
    exact hs
  -- a line that is not stored has the name `cookie`
  have hnul : ∀ l' ∈ ls, 0 ∉ (Hdr.field l').1 := by
    intro l' hl' h0
    by_cases hs' : Hdr.stored cookies l' = true
    · have hone := h l' hl' hs' (List.ne_nil_of_mem h0)
      obtain ⟨b, hb, hlow⟩ := List.mem_map.1 h0
      obtain rfl := Hdr.toLower_nul b hlow
      exact hone.nul ((List.takeWhile_sublist _).subset hb)
    · have hcookie : (Hdr.field l').1 = Hdr.cookie := by
        simp only [Hdr.stored, Bool.not_eq_true', Bool.not_eq_false, Bool.and_eq_true,
          beq_iff_eq] at hs'
        exact hs'.2
      rw [hcookie] at h0
      revert h0
      decide
  have h₀ (f : Str × Str) (hf : Hdr.okdField kcfg l₀ = some f) : f.1 ≠ (Hdr.field l).1 :=
    fun he => hp.name l hl (he ▸ Hdr.okdField_reqline hsp hf)
  refine (Hdr.forall₂_under
    (fun l' hl' => .inl (Hdr.okdField_name (hp.colon l' hl') (hnul l' hl'))) h₀ hstored).2
      fun l' hl' hl'' => ?_
  have hone := h l' hl' (hstored l' hl'') (hl'' ▸ hq)
  exact (Hdr.sameValue_iff (hp.proper l' hl' (hstored l' hl'')) hone.nul).2 hone.blank

/-- `okd` and the service agree about the header of an accepted request if and only if the method
consists of capital letters and each stored value is empty or follows exactly one blank. -/
theorem okdAgrees_iff_readable (kcfg : CloneConfig) (hcap : 0 < cap₂)
    (h : (InHdr.machine icfg (InHdr.cgis ccfg)).Ends (InHdr.start cap cap₂ (Abuf.whole B)) o)
    (hok : o.status = Http.ok) :
    OkdAgrees kcfg B o.tab ↔ Readable icfg.parseCookies B := by
  constructor
  · intro hagree
    obtain ⟨d, hd, htab⟩ := hagree fun _ => 120
    obtain ⟨l₀, ls, hlines, hsp⟩ := Hdr.delimitHeaders_line (Prod.ext hd rfl)
    obtain ⟨hc, hparsed⟩ := parsed_of_lines hcap hlines h hok
    rw [Hdr.reqline_crlf] at hsp
    obtain ⟨d', hd', htab'⟩ :=
      Hdr.delimitHeaders_fields { kcfg with mem := fun _ => 120 } hlines hsp hc
    rw [hd'] at hd
    cases hd
    rw [htab'] at htab
    exact ⟨l₀, ls, hlines, hsp, oneBlank_of_agrees hsp hparsed htab⟩
  · rintro ⟨l₀, ls, hlines, hsp, hone⟩ mem
    obtain ⟨hc, hparsed⟩ := parsed_of_lines hcap hlines h hok
    obtain ⟨d, hd, htab⟩ := Hdr.delimitHeaders_fields { kcfg with mem := mem } hlines hsp hc
    refine ⟨d, by rw [hd], ?_⟩
    rw [htab]
    exact agrees_of_oneBlank hsp hparsed hone

end

/-- `host: a`, with one blank. -/
theorem okdAgrees_iff_readable_host : ∃ o,
    (InHdr.machine ⟨true, true, false, false⟩ (InHdr.cgis ⟨64, id⟩)).Ends
      (InHdr.start 64 64 (Abuf.whole
        [71, 69, 84, 32, 47, 32, 72, 84, 84, 80, 47, 49, 46, 48, 13, 10, 104, 111, 115, 116, 58, 32,
        97, 13, 10, 13, 10])) o ∧
    OkdAgrees ⟨true, 1024, fun _ => 0, fun _ _ => true⟩
      [71, 69, 84, 32, 47, 32, 72, 84, 84, 80, 47, 49, 46, 48, 13, 10, 104, 111, 115, 116, 58, 32,
      97, 13, 10, 13, 10] o.tab := by
  obtain ⟨d, o, hs, -⟩ := served_of_run
      [71, 69, 84, 32, 47, 32, 72, 84, 84, 80, 47, 49, 46, 48, 13, 10, 104, 111, 115, 116, 58, 32,
      97, 13, 10, 13, 10]
    (fun _ _ => true) 40 (by decide +kernel) (by decide +kernel)
  refine ⟨o, hs.service, (okdAgrees_iff_readable _ hs.room hs.service hs.ok).2
    ⟨_, _, rfl, by decide, ?_⟩⟩
  intro l hl _ _
  obtain rfl := List.mem_singleton.1 hl
  exact ⟨by decide, by decide⟩

end Okws
