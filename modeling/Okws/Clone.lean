import Mathlib.Data.List.Induction
import Okws.ReqLine

namespace Okws

def fresh (mem : Nat → UInt8) (n : Nat) : Str := (List.range n).map mem

/-- `tolower_s`: what follows a NUL is not written. -/
def tolowerS (mem : Nat → UInt8) (s : Str) : Str :=
  (cstr s).map Byte.toLower ++ fresh mem (s.length - (cstr s).length)

/-- `strip_newlines`: the string keeps its length, and what follows the NUL is not written. -/
def stripNewlines (mem : Nat → UInt8) (s : Str) : Str :=
  let w := s.takeWhile (!Byte.isEol ·)
  if w.length = s.length then s else w ++ 0 :: fresh mem (s.length - w.length - 1)

/-- `ahttp_delimit_res`. -/
structure DelimitRes where
  reqline : Option Str
  headers : PairTab := .empty
  deriving DecidableEq

/-- The variables of the loop in `delimit_headers`. -/
structure HdrScan where
  reqline : Option Str := none
  headers : List Str := []
  done : Bool := false

structure CloneConfig where
  allHeaders : Bool
  maxline : Nat
  mem : Nat → UInt8
  /-- Whether the callback calls `declone`. -/
  declones : Option DelimitRes → Nat → Bool

/-- A call of `ccb`, with the `request_bytes` at that time. -/
structure CloneCall where
  bytes : Str
  dres : Option DelimitRes
  status : Nat
  deriving DecidableEq

def CloneCall.target (c : CloneCall) : Option Str := c.dres.bind DelimitRes.reqline

/-- The members of `ahttpcon_clone` that `recvd_bytes` uses; `ended` says that it has called
`end_read`, and `limited` that it has set `recv_limit`. -/
structure Clone where
  requestBytes : Str := []
  ccb : Bool := true
  decloned : Bool := false
  ended : Bool := false
  limited : Bool := false
  calls : List CloneCall := []
  deriving DecidableEq

namespace Reqline

/-- The method is followed by something else than a blank. -/
def Bad (bytes : Str) : Prop := ∃ b, (bytes.dropWhile isUpper).head? = some b ∧ b ≠ Byte.sp

def Complete (bytes : Str) : Prop :=
  (bytes.dropWhile isUpper).head? = some Byte.sp ∧ (uri bytes).any isEnd = true

theorem loop_append {q : DelimitSt} {w bytes : Str} (cs : Str) (h : loop q w bytes ≠ .more) :
    loop q w (bytes ++ cs) = loop q w bytes := by
  induction bytes generalizing q w with
  | nil => exact absurd rfl h
  | cons p bytes ih =>
    cases q <;> simp only [loop, List.cons_append] at h ⊢ <;> split_ifs at h ⊢ <;>
      first | rfl | exact ih h

theorem Complete.loop {bytes : Str} (h : Complete bytes) :
    loop .method [] bytes = .found ((uri bytes).takeWhile (!isEnd ·)) := by
  simp [loop_method, h.1, loop_target, h.2]

theorem Bad.loop {bytes : Str} (h : Bad bytes) : loop .method [] bytes = .bad := by
  obtain ⟨b, hb, hsp⟩ := h
  simp [loop_method, hb, hsp]

theorem loop_more {bytes : Str} (hb : ¬ Bad bytes) (hc : ¬ Complete bytes) :
    loop .method [] bytes = .more := by
  rw [loop_method]
  cases hh : (bytes.dropWhile isUpper).head? with
  | none => rfl
  | some b =>
    have hsp : b = Byte.sp := by
      by_contra hsp
      exact hb ⟨b, hh, hsp⟩
    subst hsp
    have hend : ¬ (uri bytes).any isEnd = true := fun hend => hc ⟨hh, hend⟩
    simp only [if_true, loop_target, if_neg hend]

theorem loop_more_iff {bytes : Str} :
    loop .method [] bytes = .more ↔ ¬ Bad bytes ∧ ¬ Complete bytes := by
  constructor
  · intro h
    exact ⟨fun hb => by simp [hb.loop] at h, fun hc => by simp [hc.loop] at h⟩
  · intro h
    exact loop_more h.1 h.2

end Reqline

namespace Clone

variable (cfg : CloneConfig)

/-- The loop of `delimit_headers`.  At the beginning of a line there is no `nextline`; state 2 is
left in the round in which it is entered. -/
def scanLines : Option Str → HdrScan → Str → HdrScan
  | _, s, [] => s
  | none, s, p :: bytes =>
    if Byte.isEol p then { s with done := true } else scanLines (some [p]) s bytes
  | some line, s, p :: bytes =>
    if p = Byte.lf then
      let header := line ++ crlf
      let s := { s with reqline := some (s.reqline.getD header) }
      if header = crlf then { s with done := true }
      else scanLines none { s with headers := s.headers ++ [tolowerS cfg.mem header] } bytes
    else scanLines (some (line ++ [p])) s bytes

/-- The name and the value in a line of the header; the character behind the colon is skipped. -/
def splitHeader (header : Str) : Option (Str × Str) :=
  let pos := ((cstr header).takeWhile (· ≠ 58)).length
  if pos = (cstr header).length then none
  else some (header.take pos, stripNewlines cfg.mem (header.drop (pos + 2)))

def addHeader (tab : PairTab) (header : Str) : PairTab :=
  match splitHeader cfg header with
  | some (key, value) => tab.insert (some key) (some value) true true
  | none => tab

def delimitHeaders (bytes : Str) : Option DelimitRes × Nat :=
  let s := scanLines cfg none {} bytes
  match s.reqline with
  | none => (none, Http.ok)
  | some reqline =>
    let (target, status) := parseReqline cfg.maxline reqline
    if target = none ∨ status ≠ Http.ok then (none, status)
    else if !s.done then (none, status)
    else (some ⟨target, s.headers.foldl (addHeader cfg) .empty⟩, status)

/-- `delimit` returns a result for every request. -/
def delimit (bytes : Str) : Option DelimitRes × Nat :=
  let (target, status) := parseReqline cfg.maxline bytes
  (some ⟨target, .empty⟩, status)

def delimitted (bytes : Str) : Option DelimitRes × Nat :=
  if cfg.allHeaders then delimitHeaders cfg bytes else delimit cfg bytes

/-- The end of `recvd_bytes`, when there is a result or an error. -/
def issue (c : Clone) (dres : Option DelimitRes) (status : Nat) : Clone :=
  let c := if c.ccb then
      { c with ccb := false, decloned := cfg.declones dres status
               calls := c.calls ++ [⟨c.requestBytes, dres, status⟩] }
    else c
  if dres.isSome ∧ c.decloned = false then { c with ended := true } else { c with limited := true }

/-- `recvd_bytes`, with `bs` in the ring buffer. -/
def recvdBytes (c : Clone) (bs : Str) : Clone :=
  if c.decloned then c
  else
    let c := { c with requestBytes := c.requestBytes ++ bs }
    let (dres, status) := delimitted cfg c.requestBytes
    if dres.isSome ∨ status ≠ Http.ok then c.issue cfg dres status else c

/-- A fresh connection that gets its request in the pieces `fs`. -/
def run (fs : List Str) : Clone := fs.foldl (recvdBytes cfg) {}

section Delimit

attribute [local simp] scanLines delimitHeaders

variable {cfg}

theorem scanLines_done {line : Option Str} {s : HdrScan} {bs : Str} (cs : Str) (hs : s.done = false)
    (h : (scanLines cfg line s bs).done = true) :
      scanLines cfg line s (bs ++ cs) = scanLines cfg line s bs := by
  induction bs generalizing line s with
  | nil => cases hs.symm.trans h
  | cons p bs ih =>
    cases line with
    | none =>
      simp only [scanLines, List.cons_append] at h ⊢
      split
      · rfl
      · next hp =>
        rw [if_neg hp] at h
        exact ih hs h
    | some line =>
      simp only [scanLines, List.cons_append] at h ⊢
      split
      · next hp =>
        rw [if_pos hp] at h
        split
        · rfl
        · next hc =>
          rw [if_neg hc] at h
          exact ih hs h
      · next hp =>
        rw [if_neg hp] at h
        exact ih hs h

theorem scanLines_reqline {line : Option Str} {s : HdrScan} {r : Str} (bs : Str)
    (hr : s.reqline = some r) :
    (scanLines cfg line s bs).reqline = some r := by
  induction bs generalizing line s with
  | nil => exact hr
  | cons p bs ih =>
    cases line with
    | none =>
      simp only [scanLines]
      split
      · exact hr
      · exact ih hr
    | some line =>
      simp only [scanLines, hr, Option.getD_some]
      split
      · split
        · rfl
        · exact ih rfl
      · exact ih hr

theorem scanLines_append {line : Option Str} {s : HdrScan} {r : Str} {bs : Str} (cs : Str)
    (hr : (scanLines cfg line s bs).reqline = some r) :
    (scanLines cfg line s (bs ++ cs)).reqline = some r := by
  induction bs generalizing line s with
  | nil => exact scanLines_reqline cs hr
  | cons p bs ih =>
    cases line with
    | none =>
      simp only [scanLines, List.cons_append] at hr ⊢
      split
      · next hp => rwa [if_pos hp] at hr
      · next hp =>
        rw [if_neg hp] at hr
        exact ih hr
    | some line =>
      simp only [scanLines, List.cons_append] at hr ⊢
      split
      · next hp =>
        rw [if_pos hp] at hr
        split
        · next hc => rwa [if_pos hc] at hr
        · next hc =>
          rw [if_neg hc] at hr
          exact ih hr
      · next hp =>
        rw [if_neg hp] at hr
        exact ih hr

def Decided (x : Option DelimitRes × Nat) : Prop := x.1.isSome = true ∨ x.2 ≠ Http.ok

theorem delimitHeaders_append {bs : Str} (cs : Str) (h : Decided (delimitHeaders cfg bs)) :
    delimitHeaders cfg (bs ++ cs) = delimitHeaders cfg bs := by
  cases hr : (scanLines cfg none {} bs).reqline with
  | none => simp [Decided, hr] at h
  | some r =>
    simp only [Decided, delimitHeaders, hr] at h
    simp only [delimitHeaders, hr, scanLines_append cs hr]
    split
    · rfl
    · next hok =>
      rw [if_neg hok] at h
      cases hd : (scanLines cfg none {} bs).done with
      | true => rw [scanLines_done cs rfl hd, hd]
      | false =>
        simp only [not_or, Decidable.not_not] at hok
        simp [hd, hok.2] at h

theorem scanLines_blank {line : Option Str} {s : HdrScan} {bs : Str} (hs : s.done = false)
    (hline : ∀ l, line = some l → l ≠ []) (h : (scanLines cfg line s bs).done = true) :
    (line = none ∧ ∃ c b, bs = c :: b ∧ Byte.isEol c = true) ∨
      ∃ a c b, bs = a ++ Byte.lf :: c :: b ∧ Byte.isEol c = true := by
  induction bs generalizing line s with
  | nil => cases hs.symm.trans h
  | cons p bs ih =>
    have next (line : Option Str) (s : HdrScan) (hs : s.done = false)
        (hline : ∀ l, line = some l → l ≠ []) (hp : line = none → p = Byte.lf)
        (h : (scanLines cfg line s bs).done = true) :
        ∃ a c b, p :: bs = a ++ Byte.lf :: c :: b ∧ Byte.isEol c = true := by
      obtain ⟨hn, c, b, rfl, hc⟩ | ⟨a, c, b, rfl, hc⟩ := ih hs hline h
      · exact ⟨[], c, b, by simp [hp hn], hc⟩
      · exact ⟨p :: a, c, b, rfl, hc⟩
    cases line with
    | none =>
      simp only [scanLines] at h
      split at h
      · next hp => exact .inl ⟨rfl, p, bs, rfl, hp⟩
      · exact .inr (next _ _ hs (by simp) (fun h => by cases h) h)
    | some line =>
      simp only [scanLines] at h
      split at h
      · next hp =>
        split at h
        · next hc =>
          have hnil : line = [] := by simpa using congrArg List.length hc
          exact absurd hnil (hline line rfl)
        · exact .inr (next none _ (by exact hs) (by simp) (fun _ => hp) h)
      · exact .inr (next _ _ hs (by simp) (fun h => by cases h) h)

theorem delimitHeaders_blank {bs : Str} (h : (delimitHeaders cfg bs).1.isSome = true) :
    ∃ a c b, bs = a ++ Byte.lf :: c :: b ∧ Byte.isEol c = true := by
  cases hr : (scanLines cfg none {} bs).reqline with
  | none => simp [hr] at h
  | some r =>
    cases hd : (scanLines cfg none {} bs).done with
    | false =>
      simp only [delimitHeaders, hr, hd] at h
      split at h <;> cases h
    | true =>
      obtain ⟨-, c, b, rfl, hc⟩ | hex := scanLines_blank rfl (by simp) hd
      · simp [hc] at hr
      · exact hex

theorem delimitHeaders_nil : delimitHeaders cfg [] = (none, Http.ok) := rfl

end Delimit

section Run

variable {cfg} {c : Clone} {p : Str}

/-- The callback has been called once, with what was found in `p`. -/
structure Called (cfg : CloneConfig) (c : Clone) (p : Str) : Prop where
  ccb : c.ccb = false
  calls : c.calls = [⟨p, (delimitted cfg p).1, (delimitted cfg p).2⟩]
  decided : Decided (delimitted cfg p)

theorem Called.issue (h : Called cfg c p) (dres : Option DelimitRes) (status : Nat) :
    Called cfg (c.issue cfg dres status) p := by
  have hc : ¬ c.ccb = true := by simp [h.ccb]
  unfold Clone.issue
  rw [if_neg hc]
  dsimp only
  split <;> exact ⟨h.ccb, h.calls, h.decided⟩

theorem Called.recvdBytes (h : Called cfg c p) (bs : Str) : Called cfg (c.recvdBytes cfg bs) p := by
  unfold Clone.recvdBytes
  split
  · exact h
  · have hb : Called cfg { c with requestBytes := c.requestBytes ++ bs } p :=
      ⟨h.ccb, h.calls, h.decided⟩
    dsimp only
    split
    · exact hb.issue _ _
    · exact hb

theorem Called.foldl (h : Called cfg c p) (fs : List Str) :
    Called cfg (fs.foldl (Clone.recvdBytes cfg) c) p := by
  induction fs generalizing c with
  | nil => exact h
  | cons f fs ih => exact ih (h.recvdBytes f)

theorem recvdBytes_called {B bs : Str} (h : Decided (delimitted cfg (B ++ bs))) :
    Called cfg (Clone.recvdBytes cfg { requestBytes := B } bs) (B ++ bs) := by
  have hstep : Clone.recvdBytes cfg { requestBytes := B } bs = issue cfg { requestBytes := B ++ bs }
      (delimitted cfg (B ++ bs)).1 (delimitted cfg (B ++ bs)).2 := if_pos h
  rw [hstep]
  unfold issue
  rw [if_pos rfl]
  dsimp only
  split <;> exact ⟨rfl, rfl, h⟩

theorem recvdBytes_waits {B bs : Str} (h : ¬ Decided (delimitted cfg (B ++ bs))) :
    Clone.recvdBytes cfg { requestBytes := B } bs = { requestBytes := B ++ bs } := if_neg h

theorem run_cons {f : Str} (fs : List Str) (h : Decided (delimitted cfg f)) :
    Called cfg (run cfg (f :: fs)) f :=
  Called.foldl (recvdBytes_called (B := []) h) fs

variable (cfg) in
theorem run_cases (fs : List Str) :
    (∃ p q, fs.flatten = p ++ q ∧ Called cfg (run cfg fs) p) ∨
      run cfg fs = { requestBytes := fs.flatten } ∧
      (fs = [] ∨ ¬ Decided (delimitted cfg fs.flatten)) := by
  induction fs using List.reverseRecOn with
  | nil => exact .inr ⟨rfl, .inl rfl⟩
  | append_singleton fs f ih =>
    have hrun : run cfg (fs ++ [f]) = (run cfg fs).recvdBytes cfg f := by simp [run]
    rw [hrun]
    obtain ⟨p, q, hfs, hp⟩ | ⟨hfs, -⟩ := ih
    · exact .inl ⟨p, q ++ f, by simp [hfs], hp.recvdBytes f⟩
    · rw [hfs]
      have hflat : (fs ++ [f]).flatten = fs.flatten ++ f := by simp
      rw [hflat]
      by_cases hd : Decided (delimitted cfg (fs.flatten ++ f))
      · exact .inl ⟨fs.flatten ++ f, [], by simp, recvdBytes_called hd⟩
      · exact .inr ⟨recvdBytes_waits hd, .inr hd⟩

end Run

/-- The target, or all of the header, is in `bytes`. -/
def Received (bytes : Str) : Prop :=
  if cfg.allHeaders then ∃ a c b, bytes = a ++ Byte.lf :: c :: b ∧ Byte.isEol c = true
  else Reqline.Complete bytes

/-- The callback is called at most once, when its time has come, and as if the request had come in
one piece. -/
structure Waits (fs : List Str) : Prop where
  once : (run cfg fs).calls.length ≤ 1
  received : ∀ call ∈ (run cfg fs).calls, Received cfg call.bytes ∨ call.status ≠ Http.ok
  whole : (run cfg fs).calls.map (fun call => (call.target, call.status)) =
    (run cfg (Abuf.whole fs.flatten)).calls.map (fun call => (call.target, call.status))

section Waits

variable {cfg}

theorem waits_headers (hall : cfg.allHeaders = true) (fs : List Str) : Waits cfg fs := by
  have hdel (bs : Str) : delimitted cfg bs = delimitHeaders cfg bs := if_pos hall
  have hnil : ¬ Decided (delimitted cfg []) := by simp [hdel, delimitHeaders_nil, Decided]
  obtain ⟨p, q, hfs, hp⟩ | ⟨hfs, hd⟩ := run_cases cfg fs
  · have hwhole : delimitted cfg (p ++ q) = delimitted cfg p := by
      simpa only [hdel] using delimitHeaders_append q (by simpa only [hdel] using hp.decided)
    have hne : p ++ q ≠ [] := by
      rintro hpq
      rw [hpq] at hwhole
      exact hnil (hwhole ▸ hp.decided)
    have hpq := run_cons [] (hwhole ▸ hp.decided)
    refine ⟨by simp [hp.calls], ?_, ?_⟩
    · intro call hcall
      rw [hp.calls, List.mem_singleton] at hcall
      subst hcall
      have hdec := hp.decided
      rw [hdel] at hdec ⊢
      refine hdec.imp (fun hs => ?_) id
      rw [Received, if_pos hall]
      exact delimitHeaders_blank hs
    · rw [hfs, Abuf.whole, if_neg hne, hp.calls, hpq.calls, hwhole]
      rfl
  · have hcalls : (run cfg fs).calls = [] := by rw [hfs]
    refine ⟨by simp [hcalls], by simp [hcalls], ?_⟩
    have hdec : ¬ Decided (delimitted cfg fs.flatten) := hd.elim (fun h => h ▸ hnil) id
    rw [hcalls, Abuf.whole]
    split
    · rfl
    · exact congrArg _ (congrArg Clone.calls (recvdBytes_waits (B := []) hdec)).symm

theorem run_delimit (hall : cfg.allHeaders = false) (f : Str) (fs : List Str) :
    (run cfg (f :: fs)).calls =
      [⟨f, some ⟨(parseReqline cfg.maxline f).1, .empty⟩, (parseReqline cfg.maxline f).2⟩] := by
  have hdel : delimitted cfg f = delimit cfg f := if_neg (by simp [hall])
  have hd : Decided (delimitted cfg f) := by
    rw [hdel]
    exact .inl rfl
  rw [(run_cons fs hd).calls, hdel]
  rfl

/-- The first piece shows that the request is bad, or has all of the target, or is too long in a
request that is neither. -/
def FirstDecides (maxline : Nat) : List Str → Prop
  | [] => True
  | f :: fs => Reqline.Bad f ∨ Reqline.Complete f ∨
      (maxline < f.length ∧ ¬ Reqline.Bad (f ++ fs.flatten) ∧ ¬ Reqline.Complete (f ++ fs.flatten))

theorem parseReqline_append (maxline : Nat) {f : Str} (gs : Str)
    (h : Reqline.loop .method [] f ≠ .more) :
    parseReqline maxline (f ++ gs) = parseReqline maxline f ∧
      (Reqline.Complete f ∨ (parseReqline maxline f).2 ≠ Http.ok) := by
  unfold parseReqline
  rw [Reqline.loop_append gs h]
  by_cases hc : Reqline.Complete f
  · rw [hc.loop]
    exact ⟨rfl, .inl hc⟩
  · by_cases hb : Reqline.Bad f
    · rw [hb.loop]
      exact ⟨rfl, .inr (show Http.badRequest ≠ Http.ok by decide)⟩
    · exact absurd (Reqline.loop_more hb hc) h

theorem parseReqline_more {maxline : Nat} {f : Str} (h : Reqline.loop .method [] f = .more) :
    parseReqline maxline f = (none, if maxline < f.length then Http.uriTooBig else Http.ok) := by
  simp [parseReqline, h]

theorem waits_delimit (hall : cfg.allHeaders = false) (f : Str) (fs : List Str) :
    Waits cfg (f :: fs) ↔ (Reqline.Complete f ∨ (parseReqline cfg.maxline f).2 ≠ Http.ok) ∧
      f ++ fs.flatten ≠ [] ∧ parseReqline cfg.maxline (f ++ fs.flatten) =
        parseReqline cfg.maxline f := by
  have hrec : Received cfg f ↔ Reqline.Complete f := by simp [Received, hall]
  constructor
  · rintro ⟨-, hr, hw⟩
    rw [run_delimit hall, List.flatten_cons, Abuf.whole] at hw
    split at hw
    · cases hw
    · next hne =>
      rw [run_delimit hall] at hw
      refine ⟨?_, hne, ?_⟩
      · rw [← hrec]
        exact hr _ (by rw [run_delimit hall]; exact List.mem_singleton_self _)
      · simpa [CloneCall.target, Prod.ext_iff, eq_comm] using hw
  · rintro ⟨hr, hne, hw⟩
    refine ⟨by simp [run_delimit hall], ?_, ?_⟩
    · intro call hcall
      rw [run_delimit hall, List.mem_singleton] at hcall
      subst hcall
      rwa [hrec]
    · rw [run_delimit hall, List.flatten_cons, Abuf.whole, if_neg hne, run_delimit hall, hw]
      rfl

theorem waits_iff (cfg : CloneConfig) (fs : List Str) :
    Waits cfg fs ↔ cfg.allHeaders = true ∨ FirstDecides cfg.maxline fs := by
  cases hall : cfg.allHeaders with
  | true => exact ⟨fun _ => .inl rfl, fun _ => waits_headers hall fs⟩
  | false =>
    simp only [Bool.false_eq_true, false_or]
    cases fs with
    | nil => exact ⟨fun _ => trivial, fun _ => ⟨by simp [run], by simp [run], rfl⟩⟩
    | cons f fs =>
      rw [waits_delimit hall, FirstDecides]
      by_cases hf : Reqline.loop .method [] f = .more
      · -- neither bad nor complete: all hangs on the length of the first piece
        obtain ⟨hnb, hnc⟩ := Reqline.loop_more_iff.mp hf
        rw [parseReqline_more hf]
        simp only [hnb, hnc, false_or]
        split
        · next hlong =>
          have hne : f ++ fs.flatten ≠ [] := by
            rintro hnil
            simp [(List.append_eq_nil_iff.mp hnil).1] at hlong
          have hbig : cfg.maxline < (f ++ fs.flatten).length := by
            simp only [List.length_append]
            omega
          rw [← Reqline.loop_more_iff]
          constructor
          · rintro ⟨-, -, hw⟩
            refine ⟨hlong, ?_⟩
            unfold parseReqline at hw
            split at hw
            · cases hw
            · cases hw
            · assumption
          · rintro ⟨-, hw⟩
            refine ⟨by decide, hne, ?_⟩
            rw [parseReqline_more hw, if_pos hbig]
        · next hshort => exact ⟨fun h => absurd rfl h.1, fun h => absurd h.1 hshort⟩
      · obtain ⟨hp, hr⟩ := parseReqline_append cfg.maxline fs.flatten hf
        have hne : f ++ fs.flatten ≠ [] := by
          rintro hnil
          exact hf (by rw [(List.append_eq_nil_iff.mp hnil).1]; rfl)
        refine ⟨fun _ => ?_, fun _ => ⟨hr, hne, hp⟩⟩
        rw [Reqline.loop_more_iff] at hf
        tauto

/-- `GET /a` comes first, and the rest of the line with the next piece: the callback is called
with no target and no error. -/
theorem not_waits_split : ¬ Waits ⟨false, 1024, fun _ => 0, fun _ _ => true⟩
    [[71, 69, 84, 32, 47, 97],
      [32, 72, 84, 84, 80, 47, 49, 46, 48, 13, 10]] := by
  intro h
  have hcall := h.received ⟨[71, 69, 84, 32, 47, 97], some ⟨none, .empty⟩, Http.ok⟩
      (by decide)
  obtain ⟨-, hend⟩ | hst := hcall
  · revert hend
    decide
  · exact hst rfl

end Waits

end Clone

end Okws
