import Okws.Cluster

/-! What the choice of a child depends on, and the ways it takes to `find_best_fit_child`: from
the socket or `okssld`, by way of the queue, and back from a service that keeps the connection. -/

namespace Okws

/-- `ssl_ctx_t`, without the cipher. -/
structure SslCtx where
  okdOrdinal : UInt32
  deriving DecidableEq

/-- A connection as `newserv2` gets it, and as `okctl_sendcon_arg2_t` carries it. -/
structure SendconArg where
  sin : Option UInt32
  port : Nat
  ssl : Option SslCtx
  deriving DecidableEq

/-- What the members that nothing sets hold, on the way of a connection from `okd` to a service
and back. -/
structure Uninit where
  okd : Int32
  sent : UInt32
  service : Int32
  kept : UInt32

namespace DemuxData

/-- The constructor that `okd` uses; `uninit` is `_ssl_ordinal` before it. -/
def ofSsl (port : Nat) (ssl : Option SslCtx) (uninit : Int32) : DemuxData :=
  ⟨port, ssl.isSome, (ssl.elim uninit fun ssl => ssl.okdOrdinal.toInt32).toInt⟩

/-- `to_xdr`, which allocates an `ssl_ctx_t` and sets its cipher. -/
def toXdr (d : DemuxData) (sin : Option UInt32) (uninit : UInt32) : SendconArg :=
  ⟨sin, d.port, if d.ssl then some ⟨uninit⟩ else none⟩

def alloc (arg : SendconArg) (uninit : Int32) : DemuxData :=
  ⟨arg.port, arg.ssl.isSome, uninit.toInt⟩

end DemuxData

/-- The wrapper that `newserv2` makes. -/
def newserv2 (arg : SendconArg) (uninit : Int32) : Acw :=
  ⟨arg.sin, some (.ofSsl arg.port arg.ssl uninit)⟩

/-- `send_con_to_service`, `handle_new_con2` and `oksrvc_t::keepalive`, one after the other. -/
def keepalive (arg : SendconArg) (u : Uninit) : SendconArg :=
  let sent := (DemuxData.ofSsl arg.port arg.ssl u.okd).toXdr arg.sin u.sent
  (DemuxData.alloc sent u.service).toXdr sent.sin u.kept

namespace Cluster

variable (cfg : OkdConfig)

/-- Who calls `find_best_fit_child`. -/
inductive Route
  | clone | isReady
  deriving DecidableEq

def fit (st : Cluster) (rand : Nat) (acw : Acw) (dres : Option DelimitRes) (sib : Int) :
    Route → Fit
  | .clone => (findBestFitChild cfg st.now rand st.children acw sib dres).1
  | .isReady => (findBestFitChild cfg st.now rand st.children ⟨acw.sin, none⟩ (-1) none).1

/-- The choice for a request behind `rounds` others of its connection. -/
def requestFit (st : Cluster) (con : SendconArg) (rounds : List Uninit) (uninit : Int32)
    (rand : Nat) (dres : Option DelimitRes) (sib : Int) (route : Route) : Fit :=
  fit cfg st rand (newserv2 (rounds.foldl keepalive con) uninit) dres sib route

inductive StickyKey
  | sibling (i : Nat)
  | ordinal (o : Nat)
  | forwarded (ip : UInt32)
  | peer
  deriving DecidableEq

/-- An `int` as a `size_t`. -/
def sizeOfInt (x : Int32) : Nat := (x.toInt % 2 ^ 64).toNat

def modeKey (con : SendconArg) (dres : Option DelimitRes) : StickyKey := match cfg.childMode with
  | .sslOrdinal => con.ssl.elim .peer fun ssl =>
    if ssl.okdOrdinal = 0 then .peer else .ordinal (sizeOfInt ssl.okdOrdinal.toInt32)
  | .sourceHashHeader => dres.elim .peer fun d =>
    if isInternal cfg.okAllowedProxy con.sin d.headers true ∧ getForwardedIp d.headers ≠ 0 then
      .forwarded (getForwardedIp d.headers)
    else .peer
  | _ => .peer

def stickyKey (n : Nat) (con : SendconArg) (dres : Option DelimitRes) (sib : Int) : StickyKey :=
  if 0 ≤ sib ∧ sib.toNat < n then .sibling sib.toNat else modeKey cfg con dres

def keyNumber (con : SendconArg) : StickyKey → Nat
  | .sibling i => i
  | .ordinal o => o - 1
  | .forwarded ip => ip.toNat
  | .peer => cfg.hash (con.sin.getD 0)

/-- The child of a key; there is none in a cluster without children, and without a mode only a
sibling or the only child can be chosen. -/
def stickyChild (n : Nat) (con : SendconArg) : StickyKey → Option Nat
  | .sibling i => some i
  | key =>
    if n = 0 ∨ (1 < n ∧ cfg.childMode = .last) then none else some (keyNumber cfg con key % n)

/-- Request number `k` of a connection goes to the child of its key. -/
def Sticky (st : Cluster) (con : SendconArg) (k : Nat) (dres : Option DelimitRes) (sib : Int)
    (route : Route) : Prop :=
  ∀ (rounds : List Uninit) (uninit : Int32) (rand : Nat), rounds.length = k →
    (requestFit cfg st con rounds uninit rand dres sib route).ret =
      stickyChild cfg st.children.length con (stickyKey cfg st.children.length con dres sib)

/-- The key reaches `find_best_fit_child`, or names the child of the peer.  From the queue nothing
but the peer does, and the ordinal does in the first request of a connection from `okssld` only. -/
def KeyArrives (n : Nat) (con : SendconArg) (k : Nat) (dres : Option DelimitRes) (sib : Int) :
    Route → Prop
  | .clone => n ≤ 1 ∨ (0 ≤ sib ∧ sib.toNat < n) ∨ cfg.childMode ≠ .sslOrdinal ∨
      (k = 0 ∧ con.ssl.isSome)
  | .isReady => n ≤ 1 ∨ stickyKey cfg n con dres sib = .peer ∨
      (cfg.childMode ≠ .last ∧
        keyNumber cfg con (stickyKey cfg n con dres sib) % n = keyNumber cfg con .peer % n)

section Sticky

variable {cfg} {st : Cluster} {con con' : SendconArg} {k n rand : Nat} {dres : Option DelimitRes}
variable {sib : Int} {route : Route}

theorem keepalive_sin (con : SendconArg) (u : Uninit) : (keepalive con u).sin = con.sin := rfl

theorem keepalive_ssl (con : SendconArg) (u : Uninit) :
    (keepalive con u).ssl = con.ssl.map fun _ => ⟨u.kept⟩ := by
  cases h : con.ssl <;> simp [keepalive, DemuxData.toXdr, DemuxData.alloc, DemuxData.ofSsl, h]

theorem foldl_keepalive_sin (con : SendconArg) (rounds : List Uninit) :
    (rounds.foldl keepalive con).sin = con.sin := by
  induction rounds generalizing con with
  | nil => rfl
  | cons u rounds ih => exact (ih _).trans (keepalive_sin con u)

theorem foldl_keepalive_isSome (con : SendconArg) (rounds : List Uninit) :
    (rounds.foldl keepalive con).ssl.isSome = con.ssl.isSome := by
  induction rounds generalizing con with
  | nil => rfl
  | cons u rounds ih =>
    refine (ih _).trans ?_
    rw [keepalive_ssl, Option.isSome_map]

theorem firstId_pos {acw : Acw} {id : Nat} (h : firstId cfg n rand acw sib dres = some id) :
    n ≠ 0 := by
  rintro rfl
  simp [firstId] at h

theorem tryChildren_first {now id : Nat} {chs : List Child} {ch : Child} (tries : Nat)
    (hget : chs[id % chs.length]? = some ch) (hst : ch.getStatus cfg now = .ok) :
    (tryChildren cfg now (tries + 1) id {} chs).1 = ⟨some (id % chs.length), .ok, .ok⟩ := by
  simp [tryChildren, hget, hst, tryChildren_ok]

theorem findBestFitChild_ready {now id : Nat} {chs : List Child} {acw : Acw}
    (hok : ∀ s ∈ statuses cfg now chs, s = .ok)
    (hid : firstId cfg chs.length rand acw sib dres = some id) :
    (findBestFitChild cfg now rand chs acw sib dres).1 = ⟨some (id % chs.length), .ok, .ok⟩ := by
  have hn : chs.length ≠ 0 := firstId_pos hid
  have hlt : id % chs.length < chs.length := Nat.mod_lt _ (Nat.pos_of_ne_zero hn)
  have hst : (chs[id % chs.length]).getStatus cfg now = .ok :=
    hok _ (List.mem_map_of_mem (List.getElem_mem hlt))
  have hfirst := tryChildren_first (chs.length - 1) (List.getElem?_eq_getElem hlt) hst
  rw [Nat.sub_add_cancel (Nat.one_le_iff_ne_zero.mpr hn)] at hfirst
  simp only [findBestFitChild, hid, hfirst]

theorem findBestFitChild_ret {now : Nat} {chs : List Child} {acw : Acw}
    (hok : ∀ s ∈ statuses cfg now chs, s = .ok) :
    (findBestFitChild cfg now rand chs acw sib dres).1.ret =
      (firstId cfg chs.length rand acw sib dres).map (· % chs.length) := by
  cases hid : firstId cfg chs.length rand acw sib dres with
  | none => simp only [findBestFitChild, hid, Option.map_none]
  | some id => rw [findBestFitChild_ready hok hid, Option.map_some]

theorem findBestFitChild_status {now i : Nat} {chs : List Child} {acw : Acw}
    (hok : ∀ s ∈ statuses cfg now chs, s = .ok)
    (h : (findBestFitChild cfg now rand chs acw sib dres).1.ret = some i) :
    (findBestFitChild cfg now rand chs acw sib dres).1.status = .ok := by
  cases hid : firstId cfg chs.length rand acw sib dres with
  | none => simp [findBestFitChild, hid] at h
  | some id => rw [findBestFitChild_ready hok hid]

theorem clone_sent {acw : Acw} {out : SendOut} {i : Nat}
    (hok : ∀ s ∈ statuses cfg st.now st.children, s = .ok)
    (h : (fit cfg st rand acw dres sib .clone).ret = some i) :
    (st.clone cfg acw dres sib rand out).sent = st.sent ++ [(st.next, i)] := by
  have hst := findBestFitChild_status hok h
  rw [fit] at h
  simp only [clone, hst, h, Option.elim_some]
  exact (sendConToService_books _ _ _ _ _).sent

theorem isReadyLoop_prefix (env : LoopEnv) (queue : List (Nat × Acw)) (st : Cluster) :
    st.sent <+: (isReadyLoop cfg env queue st).sent := by
  have hsend (st : Cluster) (con i : Nat) (out : SendOut) :
      st.sent <+: (st.sendConToService con i out true).sent := by
    rw [(sendConToService_books st con i out true).sent]
    exact List.prefix_append _ _
  induction queue generalizing st with
  | nil => exact List.prefix_rfl
  | cons x queue ih =>
    obtain ⟨-, heq⟩ | ⟨i, ⟨-, heq⟩ | ⟨-, heq⟩⟩ := isReadyLoop_cons cfg env st x queue
    · exact heq ▸ List.prefix_rfl
    · rw [heq]
      exact hsend (popFront cfg env st x queue) x.1 i .rpc
    · rw [heq]
      exact (hsend (popFront cfg env st x queue) x.1 i _).trans (ih _)

theorem isReadyLoop_sent {env : LoopEnv} {con : Nat} {acw : Acw} {queue : List (Nat × Acw)}
    {i : Nat} (hok : ∀ s ∈ statuses cfg st.now st.children, s = .ok)
    (h : (fit cfg st (env.rand con) acw dres sib .isReady).ret = some i) :
    st.sent ++ [(con, i)] <+: (isReadyLoop cfg env ((con, acw) :: queue) st).sent := by
  have hst := findBestFitChild_status hok h
  rw [fit] at h
  simp only [isReadyLoop, hst, h, if_true]
  have hsent (out : SendOut) : st.sent ++ [(con, i)] <+:
      ((popFront cfg env st (con, acw) queue).sendConToService con i out true).sent :=
    (sendConToService_books _ con i out true).sent ▸ List.prefix_rfl
  split
  · exact hsent _
  · exact (hsent _).trans ( isReadyLoop_prefix env queue _)

theorem sizeOfInt_eq_zero {x : UInt32} : sizeOfInt x.toInt32 = 0 ↔ x = 0 := by
  have hx : x.toInt32.toInt = x.toBitVec.toInt := rfl
  have hlt := x.toBitVec.isLt
  rw [sizeOfInt, hx, ← UInt32.toBitVec_inj, ← BitVec.toNat_inj, BitVec.toInt]
  simp only [UInt32.toBitVec_ofNat, BitVec.toNat_ofNat, Nat.zero_mod]
  split <;> omega

theorem stickyChild_sibling (con : SendconArg) (h : 0 ≤ sib ∧ sib.toNat < n) :
    stickyChild cfg n con (stickyKey cfg n con dres sib) = some sib.toNat := by
  rw [stickyKey, if_pos h, stickyChild]

theorem modeKey_ne_sibling (con : SendconArg) (dres : Option DelimitRes) (i : Nat) :
    modeKey cfg con dres ≠ .sibling i := by
  unfold modeKey
  split
  · cases con.ssl with
    | none => nofun
    | some ssl =>
      simp only [Option.elim_some]
      split <;> nofun
  · cases dres with
    | none => nofun
    | some d =>
      simp only [Option.elim_some]
      split <;> nofun
  · nofun

theorem stickyChild_mode (con : SendconArg) (h : ¬ (0 ≤ sib ∧ sib.toNat < n)) :
    stickyChild cfg n con (stickyKey cfg n con dres sib) =
      if n = 0 ∨ (1 < n ∧ cfg.childMode = .last) then none
      else some (keyNumber cfg con (modeKey cfg con dres) % n) := by
  rw [stickyKey, if_neg h]
  cases hk : modeKey cfg con dres with
  | sibling i => exact absurd hk (modeKey_ne_sibling con dres i)
  | ordinal => rfl
  | forwarded => rfl
  | peer => rfl

/-- `find_best_fit_child` for a wrapper whose ordinal has been set, or does not matter. -/
theorem firstId_newserv2 (uninit : Int32) (hrr : cfg.childMode ≠ .rr)
    (h : KeyArrives cfg n con 0 dres sib .clone) :
    (firstId cfg n rand (newserv2 con uninit) sib dres).map (· % n) =
      stickyChild cfg n con (stickyKey cfg n con dres sib) := by
  by_cases hsib : 0 ≤ sib ∧ sib.toNat < n
  · rw [stickyChild_sibling con hsib, firstId.eq_def, if_pos hsib, Option.map_some,
      Nat.mod_eq_of_lt hsib.2]
  rw [stickyChild_mode con hsib, firstId.eq_def, if_neg hsib]
  by_cases h1 : n = 1
  · simp [h1, Nat.mod_one]
  rw [if_neg h1]
  by_cases hn : 1 < n
  · rw [if_pos hn]
    have hn0 : n ≠ 0 := by omega
    simp only [hn0, hn, false_or, true_and]
    unfold modeKey
    cases hmode : cfg.childMode with
    | rr => exact absurd hmode hrr
    | sourceHash => simp [keyNumber, sourceHashIpOnly, newserv2]
    | sourceHashHeader =>
      cases dres with
      | none => simp [keyNumber, sourceHashIpOnly, newserv2]
      | some d =>
        by_cases htrust : isInternal cfg.okAllowedProxy con.sin d.headers true ∧
            getForwardedIp d.headers ≠ 0
        · simp [newserv2, htrust, keyNumber]
        · simp [newserv2, htrust, keyNumber, sourceHashIpOnly]
    | sslOrdinal =>
      rw [KeyArrives] at h
      have hn1 : ¬ n ≤ 1 := by omega
      have hssl : con.ssl.isSome := by simpa [hsib, hmode, hn1] using h
      obtain ⟨ssl, hssl⟩ := Option.isSome_iff_exists.mp hssl
      simp only [hssl, newserv2, DemuxData.ofSsl, Option.map_some, Option.getD_some,
        Option.elim_some]
      rw [← sizeOfInt, if_congr sizeOfInt_eq_zero rfl rfl]
      split <;> simp [keyNumber, sourceHashIpOnly]
    | last => simp
  · have hn0 : n = 0 := by omega
    simp [hn0]

theorem firstId_peer (con : SendconArg) (hrr : cfg.childMode ≠ .rr) :
    (firstId cfg n rand ⟨con.sin, none⟩ (-1) none).map (· % n) = stickyChild cfg n con .peer := by
  rw [firstId.eq_def, if_neg (by simp), stickyChild]
  · by_cases h1 : n = 1
    · simp [h1, Nat.mod_one]
    rw [if_neg h1]
    by_cases hn : 1 < n
    · have hn0 : n ≠ 0 := by omega
      cases hmode : cfg.childMode with
      | rr => exact absurd hmode hrr
      | sourceHash => simp [hn, hn0, keyNumber, sourceHashIpOnly]
      | sourceHashHeader => simp [hn, hn0, keyNumber, sourceHashIpOnly]
      | sslOrdinal => simp [hn, hn0, keyNumber, sourceHashIpOnly]
      | last => simp [hn]
    · have hn0 : n = 0 := by omega
      simp [hn0]
  · nofun

theorem exists_ordinal (con : SendconArg) (o : UInt32) (h : ¬ (k = 0 ∧ con.ssl.isSome)) :
    ∃ (rounds : List Uninit) (uninit : Int32), rounds.length = k ∧
      (newserv2 (rounds.foldl keepalive con) uninit).demuxData.map DemuxData.sslOrdinal =
        some o.toInt32.toInt := by
  let u : Uninit := ⟨0, 0, 0, o⟩
  refine ⟨List.replicate k u, o.toInt32, List.length_replicate, ?_⟩
  simp only [newserv2, DemuxData.ofSsl, Option.map_some]
  cases hssl : ((List.replicate k u).foldl keepalive con).ssl with
  | none => rfl
  | some ssl =>
    have hsome : con.ssl.isSome := by
      rw [← foldl_keepalive_isSome con (List.replicate k u), hssl]
      rfl
    obtain ⟨k', rfl⟩ : ∃ k', k = k' + 1 := Nat.exists_eq_succ_of_ne_zero fun hk => h ⟨hk, hsome⟩
    rw [List.replicate_succ', List.foldl_append, List.foldl_cons, List.foldl_nil,
      keepalive_ssl] at hssl
    obtain ⟨_, _, rfl⟩ := Option.map_eq_some_iff.mp hssl
    rfl

theorem firstId_ordinal {acw : Acw} {o : UInt32} (hmode : cfg.childMode = .sslOrdinal) (hn : 1 < n)
    (hsib : ¬ (0 ≤ sib ∧ sib.toNat < n)) (ho : o ≠ 0)
    (hacw : acw.demuxData.map DemuxData.sslOrdinal = some o.toInt32.toInt) :
    firstId cfg n rand acw sib dres = some (sizeOfInt o.toInt32 - 1) := by
  have hid : sizeOfInt o.toInt32 ≠ 0 := fun h => ho (sizeOfInt_eq_zero.mp h)
  have hn1 : n ≠ 1 := by omega
  rw [firstId.eq_def, if_neg hsib, if_neg hn1, if_pos hn, hmode]
  simp only [hacw, Option.getD_some]
  rw [← sizeOfInt, if_neg hid]

theorem keyArrives_of_sticky (hok : ∀ s ∈ statuses cfg st.now st.children, s = .ok)
    (h : Sticky cfg st con k dres sib .clone) :
    KeyArrives cfg st.children.length con k dres sib .clone := by
  rw [KeyArrives]
  by_contra hno
  simp only [not_or, not_not] at hno
  obtain ⟨hn, hsib, hmode, hk⟩ := hno
  have hn : 1 < st.children.length := by omega
  -- two ordinals for which the key is the same
  have hchild (o : UInt32) (ho : o ≠ 0) :
      stickyChild cfg st.children.length con (stickyKey cfg st.children.length con dres sib) =
        some ((sizeOfInt o.toInt32 - 1) % st.children.length) := by
    obtain ⟨rounds, uninit, hlen, hacw⟩ := exists_ordinal con o (k := k) hk
    rw [← h rounds uninit 0 hlen, requestFit, fit, findBestFitChild_ret hok,
      firstId_ordinal hmode hn hsib ho hacw, Option.map_some]
  have h12 := (hchild 1 (by decide)).symm.trans (hchild 2 (by decide))
  have h1 : sizeOfInt (1 : UInt32).toInt32 - 1 = 0 := by decide
  have h2 : sizeOfInt (2 : UInt32).toInt32 - 1 = 1 := by decide
  rw [h1, h2, Nat.zero_mod, Nat.mod_eq_of_lt hn] at h12
  cases h12

theorem stickyChild_congr (hsin : con'.sin = con.sin)
    (h : n ≤ 1 ∨ (0 ≤ sib ∧ sib.toNat < n) ∨ cfg.childMode ≠ .sslOrdinal) :
    stickyChild cfg n con' (stickyKey cfg n con' dres sib) =
      stickyChild cfg n con (stickyKey cfg n con dres sib) := by
  by_cases hsib : 0 ≤ sib ∧ sib.toNat < n
  · rw [stickyChild_sibling con' hsib, stickyChild_sibling con hsib]
  rw [stickyChild_mode con' hsib, stickyChild_mode con hsib]
  obtain hn | hmode := h.imp_right fun h => h.resolve_left hsib
  · obtain rfl | rfl := Nat.le_one_iff_eq_zero_or_eq_one.mp hn
    · rfl
    · simp [Nat.mod_one]
  · have hpeer : keyNumber cfg con' = keyNumber cfg con := by
      funext key
      cases key <;> simp [keyNumber, hsin]
    have hkey : modeKey cfg con' dres = modeKey cfg con dres := by
      unfold modeKey
      split
      · next h => exact absurd h hmode
      · rw [hsin]
      · rfl
    rw [hpeer, hkey]

theorem sticky_of_keyArrives (hrr : cfg.childMode ≠ .rr)
    (hok : ∀ s ∈ statuses cfg st.now st.children, s = .ok)
    (h : KeyArrives cfg st.children.length con k dres sib .clone) :
    Sticky cfg st con k dres sib .clone := by
  intro rounds uninit rand hlen
  rw [requestFit, fit, findBestFitChild_ret hok]
  by_cases hfirst : k = 0 ∧ con.ssl.isSome
  · obtain rfl := List.eq_nil_of_length_eq_zero (hlen.trans hfirst.1)
    exact firstId_newserv2 uninit hrr (.inr (.inr (.inr ⟨rfl, hfirst.2⟩)))
  · have h : st.children.length ≤ 1 ∨ (0 ≤ sib ∧ sib.toNat < st.children.length) ∨
        cfg.childMode ≠ .sslOrdinal := h.imp_right fun h => h.imp_right fun h =>
          h.resolve_right hfirst
    rw [firstId_newserv2 uninit hrr (h.imp_right fun h => h.imp_right .inl)]
    exact stickyChild_congr (foldl_keepalive_sin con rounds) h

theorem sticky_isReady_iff (hrr : cfg.childMode ≠ .rr)
    (hok : ∀ s ∈ statuses cfg st.now st.children, s = .ok) :
    Sticky cfg st con k dres sib .isReady ↔
      stickyChild cfg st.children.length con .peer =
        stickyChild cfg st.children.length con (stickyKey cfg st.children.length con dres sib) := by
  have hfit (rounds : List Uninit) (uninit : Int32) (rand : Nat) :
      (requestFit cfg st con rounds uninit rand dres sib .isReady).ret =
        stickyChild cfg st.children.length con .peer := by
    rw [requestFit, fit, findBestFitChild_ret hok, ← firstId_peer con hrr, newserv2,
      foldl_keepalive_sin]
  constructor
  · intro h
    rw [← h (List.replicate k ⟨0, 0, 0, 0⟩) 0 0 List.length_replicate]
    exact (hfit _ 0 0).symm
  · intro h rounds uninit rand _
    exact (hfit rounds uninit rand).trans h

theorem stickyChild_peer_iff (con : SendconArg) (dres : Option DelimitRes) (sib : Int) :
    stickyChild cfg n con .peer = stickyChild cfg n con (stickyKey cfg n con dres sib) ↔
      KeyArrives cfg n con k dres sib .isReady := by
  have hpeer : stickyChild cfg n con .peer = if n = 0 ∨ (1 < n ∧ cfg.childMode = .last) then none
      else some (keyNumber cfg con .peer % n) := rfl
  rw [KeyArrives, hpeer]
  by_cases hsib : 0 ≤ sib ∧ sib.toNat < n
  · rw [stickyChild_sibling con hsib, stickyKey, if_pos hsib, ← Nat.mod_eq_of_lt hsib.2]
    by_cases hn : n ≤ 1
    · obtain rfl : n = 1 := by omega
      simp [Nat.mod_one]
    · have hn : 1 < n ∧ n ≠ 0 := by omega
      by_cases hmode : cfg.childMode = .last
      · simp [hn, hmode]
      · have hne : ¬ (n = 0 ∨ (1 < n ∧ cfg.childMode = .last)) := by simp [hn, hmode]
        rw [if_neg hne, Option.some_inj, keyNumber, keyNumber, Nat.mod_mod]
        refine ⟨fun h => .inr (.inr ⟨hmode, h.symm⟩), fun h => ?_⟩
        obtain h | h | h := h
        · omega
        · cases h
        · exact h.2.symm
  · rw [stickyChild_mode con hsib, stickyKey, if_neg hsib]
    by_cases hn : n ≤ 1
    · obtain rfl | rfl := Nat.le_one_iff_eq_zero_or_eq_one.mp hn
      · simp
      · simp [Nat.mod_one]
    · have hn : 1 < n ∧ n ≠ 0 := by omega
      by_cases hmode : cfg.childMode = .last
      · simp [modeKey, hmode]
      · have hknown : ¬ (n = 0 ∨ (1 < n ∧ cfg.childMode = .last)) := by simp [hn, hmode]
        rw [if_neg hknown, if_neg hknown, Option.some_inj]
        constructor
        · exact fun h => .inr (.inr ⟨hmode, h.symm⟩)
        · rintro (h | h | ⟨-, h⟩)
          · omega
          · rw [h]
          · exact h.symm

end Sticky

theorem sticky_iff (st : Cluster) (con : SendconArg) (k : Nat) (dres : Option DelimitRes)
    (sib : Int) (route : Route) (hrr : cfg.childMode ≠ .rr)
    (hok : ∀ s ∈ statuses cfg st.now st.children, s = .ok) :
    Sticky cfg st con k dres sib route ↔
      KeyArrives cfg st.children.length con k dres sib route := by
  cases route with
  | clone => exact ⟨keyArrives_of_sticky hok, sticky_of_keyArrives hrr hok⟩
  | isReady => exact (sticky_isReady_iff hrr hok).trans (stickyChild_peer_iff con dres sib)

def readyPair : Cluster :=
  { children := List.replicate 2 { state := .serve, ctlx := some false } }

/-- Any later request of a connection with an address that a proxy has passed on. -/
theorem sticky_forwarded : readyPair.children.length = 2 ∧
    ∀ (con : SendconArg) (k : Nat) (dres : Option DelimitRes) (sib : Int),
      Sticky { plainConfig with childMode := .sourceHashHeader } readyPair con k dres sib .clone :=
  ⟨rfl, fun con k dres sib =>
    (sticky_iff { plainConfig with childMode := .sourceHashHeader } readyPair con k dres sib .clone
      (by decide) (by decide)).mpr (.inr (.inr (.inl (by decide))))⟩

/-- In the queue the ordinal is lost. -/
theorem not_sticky_queued : ¬ Sticky { plainConfig with childMode := .sslOrdinal } readyPair
    ⟨some 0, 443, some ⟨2⟩⟩ 0 none (-1) .isReady := by
  intro h
  have hret := h [] 0 0 rfl
  revert hret
  decide

end Cluster

end Okws
