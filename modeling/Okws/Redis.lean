import Okws.Byte

/-! `RedisClusterCli::runCmd`: a command goes to the node that holds its key, and is sent again when
that node refuses it. -/

namespace Okws.Redis

def crc16tab : List UInt16 := [
  0x0000, 0x1021, 0x2042, 0x3063, 0x4084, 0x50a5, 0x60c6, 0x70e7, 0x8108, 0x9129,
  0xa14a, 0xb16b, 0xc18c, 0xd1ad, 0xe1ce, 0xf1ef, 0x1231, 0x0210, 0x3273, 0x2252,
  0x52b5, 0x4294, 0x72f7, 0x62d6, 0x9339, 0x8318, 0xb37b, 0xa35a, 0xd3bd, 0xc39c,
  0xf3ff, 0xe3de, 0x2462, 0x3443, 0x0420, 0x1401, 0x64e6, 0x74c7, 0x44a4, 0x5485,
  0xa56a, 0xb54b, 0x8528, 0x9509, 0xe5ee, 0xf5cf, 0xc5ac, 0xd58d, 0x3653, 0x2672,
  0x1611, 0x0630, 0x76d7, 0x66f6, 0x5695, 0x46b4, 0xb75b, 0xa77a, 0x9719, 0x8738,
  0xf7df, 0xe7fe, 0xd79d, 0xc7bc, 0x48c4, 0x58e5, 0x6886, 0x78a7, 0x0840, 0x1861,
  0x2802, 0x3823, 0xc9cc, 0xd9ed, 0xe98e, 0xf9af, 0x8948, 0x9969, 0xa90a, 0xb92b,
  0x5af5, 0x4ad4, 0x7ab7, 0x6a96, 0x1a71, 0x0a50, 0x3a33, 0x2a12, 0xdbfd, 0xcbdc,
  0xfbbf, 0xeb9e, 0x9b79, 0x8b58, 0xbb3b, 0xab1a, 0x6ca6, 0x7c87, 0x4ce4, 0x5cc5,
  0x2c22, 0x3c03, 0x0c60, 0x1c41, 0xedae, 0xfd8f, 0xcdec, 0xddcd, 0xad2a, 0xbd0b,
  0x8d68, 0x9d49, 0x7e97, 0x6eb6, 0x5ed5, 0x4ef4, 0x3e13, 0x2e32, 0x1e51, 0x0e70,
  0xff9f, 0xefbe, 0xdfdd, 0xcffc, 0xbf1b, 0xaf3a, 0x9f59, 0x8f78, 0x9188, 0x81a9,
  0xb1ca, 0xa1eb, 0xd10c, 0xc12d, 0xf14e, 0xe16f, 0x1080, 0x00a1, 0x30c2, 0x20e3,
  0x5004, 0x4025, 0x7046, 0x6067, 0x83b9, 0x9398, 0xa3fb, 0xb3da, 0xc33d, 0xd31c,
  0xe37f, 0xf35e, 0x02b1, 0x1290, 0x22f3, 0x32d2, 0x4235, 0x5214, 0x6277, 0x7256,
  0xb5ea, 0xa5cb, 0x95a8, 0x8589, 0xf56e, 0xe54f, 0xd52c, 0xc50d, 0x34e2, 0x24c3,
  0x14a0, 0x0481, 0x7466, 0x6447, 0x5424, 0x4405, 0xa7db, 0xb7fa, 0x8799, 0x97b8,
  0xe75f, 0xf77e, 0xc71d, 0xd73c, 0x26d3, 0x36f2, 0x0691, 0x16b0, 0x6657, 0x7676,
  0x4615, 0x5634, 0xd94c, 0xc96d, 0xf90e, 0xe92f, 0x99c8, 0x89e9, 0xb98a, 0xa9ab,
  0x5844, 0x4865, 0x7806, 0x6827, 0x18c0, 0x08e1, 0x3882, 0x28a3, 0xcb7d, 0xdb5c,
  0xeb3f, 0xfb1e, 0x8bf9, 0x9bd8, 0xabbb, 0xbb9a, 0x4a75, 0x5a54, 0x6a37, 0x7a16,
  0x0af1, 0x1ad0, 0x2ab3, 0x3a92, 0xfd2e, 0xed0f, 0xdd6c, 0xcd4d, 0xbdaa, 0xad8b,
  0x9de8, 0x8dc9, 0x7c26, 0x6c07, 0x5c64, 0x4c45, 0x3ca2, 0x2c83, 0x1ce0, 0x0cc1,
  0xef1f, 0xff3e, 0xcf5d, 0xdf7c, 0xaf9b, 0xbfba, 0x8fd9, 0x9ff8, 0x6e17, 0x7e36,
  0x4e55, 0x5e74, 0x2e93, 0x3eb2, 0x0ed1, 0x1ef0]

/-- The bytes are signed characters in the source, but eight bits of the index are kept. -/
def crc16Index (crc : UInt32) (b : UInt8) : UInt32 := ((crc >>> 8) ^^^ b.toUInt32) &&& 0xff

/-- How many bytes of a text are read: its size, a `size_t`, becomes an `int`. -/
def hashedLen (s : Str) : Nat := ((s.length : Int).bmod (2 ^ 32)).toNat

def crc16 (buf : Str) : UInt32 :=
  (buf.take (hashedLen buf)).foldl
    (fun crc b => (crc <<< 8) ^^^ (crc16tab.getD (crc16Index crc b).toNat 0).toUInt32) 0

def assignKeyslot (key : Str) : Nat := match key.dropWhile (· ≠ 123) with
  | [] => (crc16 key &&& 16383).toNat
  | _ :: rest =>
    let tag := rest.takeWhile (· ≠ 125)
    if tag = rest ∨ tag = [] then (crc16 key &&& 16383).toNat else (crc16 tag &&& 16383).toNat

structure Node where
  host : Str
  port : Nat
  deriving DecidableEq

inductive RedisReply
  | nil
  | integer (n : Int)
  | string (s : Str)
  | array (l : List RedisReply)
  | status (s : Str)
  | error (s : Str)

def RedisReply.isError : RedisReply → Bool
  | .error _ => true
  | _ => false

/-- As much of `pub3::obj_t` as replies are made of. -/
inductive Obj
  | null
  | int (n : Int)
  | str (s : Str)
  | list (l : List Obj)

namespace Obj

def toList : Obj → List Obj
  | .list l => l
  | _ => []

def idx (o : Obj) (i : Nat) : Obj := o.toList.getD i .null

end Obj

mutual

/-- An array is made by pushing to its end, so that without elements it stays null. -/
def parseReply : RedisReply → Obj
  | .nil => .null
  | .integer n => .int n
  | .string s | .status s | .error s => .str s
  | .array [] => .null
  | .array (r :: l) => .list (parseReply r :: parseReplies l)

def parseReplies : List RedisReply → List Obj
  | [] => []
  | r :: l => parseReply r :: parseReplies l

end

/-- `redis_res_t`. -/
structure RedisRes where
  error : Bool
  status : Option Str := none
  obj : Obj := .null

/-- What comes of a command that is sent to a node. -/
inductive Answer
  | notConnected
  | timedOut
  | nullReply
  | reply (r : RedisReply)

/-- `RedisCli::runCmd`. -/
def Answer.res : Answer → RedisRes
  | .notConnected => { error := true, status := some (ascii "not connected".toList) }
  | .timedOut => { error := true, status := some (ascii "timed out".toList) }
  | .nullReply => { error := true, status := some (ascii "null reply".toList) }
  | .reply (.error s) => { error := true, status := some s }
  | .reply (.status s) => { error := false, status := some s }
  | .reply r => { error := false, obj := parseReply r }

/-- The conversions that other libraries make: `obj_t::to_int`, `obj_t::to_str`, `str::to_int32` and
`split` with the expression of the blank and the colon. -/
structure Conv where
  toInt : Obj → Int
  toStr : Obj → Str
  toInt32 : Str → Option Int
  split : Str → List Str

structure Net where
  connect : Nat → Node → Bool
  isConnected : Nat → Node → Bool
  answer : Nat → Node → List Str → Answer

/-- The entries of `m_slots` are made by `insert`, always with a node. -/
structure RedisClusterCli where
  startupNodes : List Node
  slots : Nat → Option Node
  connectionCache : List Node := []
  dirtyTables : Bool

/-- `now` counts what has been asked of the nodes; `replies` are those to the command itself, and
`triggered` is what the event was triggered with. -/
structure World where
  cli : RedisClusterCli
  now : Nat := 0
  replies : List RedisReply := []
  triggered : List RedisRes := []

namespace World

variable (net : Net) (w : World)

def connect (n : Node) : Bool × World := (net.connect w.now n, { w with now := w.now + 1 })

def isConnected (n : Node) : Bool × World :=
  (net.isConnected w.now n, { w with now := w.now + 1 })

def ask (n : Node) (cmds : List Str) : Answer × World :=
  (net.answer w.now n cmds, { w with now := w.now + 1 })

def trigger (res : RedisRes) : World := { w with triggered := res :: w.triggered }

end World

section Model

variable (conv : Conv) (net : Net)

def getRandomConn : List Node → World → Option Node × World
  | [], w => (none, w)
  | n :: ns, w =>
    let c := w.connect net n
    if c.1 then
      let a := c.2.ask net n [ascii "PING".toList]
      if a.1.res.error then getRandomConn ns a.2 else (some n, a.2)
    else getRandomConn ns c.2

/-- Without an entry for the slot, a null pointer is followed. -/
def getConnFromSlot (slot : Nat) (w : World) : Option (Option Node × World) :=
  (w.cli.slots slot).map fun n =>
    let cached := w.isConnected net n
    if n ∈ w.cli.connectionCache ∧ cached.1 then (some n, cached.2)
    else
      let c := w.connect net n
      let a := c.2.isConnected net n
      if c.1 ∧ a.1 then
        (some n, { a.2 with cli := { a.2.cli with
          connectionCache := n :: a.2.cli.connectionCache } })
      else getRandomConn net a.2.cli.startupNodes a.2

/-- A part of the answer to `CLUSTER SLOTS`. -/
structure SlotRange where
  first : Int
  last : Int
  node : Node

def slotRange (slot : Obj) : SlotRange where
  first := (conv.toInt (slot.idx 0)).bmod (2 ^ 32)
  last := conv.toInt (slot.idx 1)
  node := ⟨conv.toStr ((slot.idx 2).idx 0), (conv.toInt ((slot.idx 2).idx 1) % 2 ^ 16).toNat⟩

/-- The numbers from the first to the last are cut to sixteen bits. -/
def insertRange (slots : Nat → Option Node) (r : SlotRange) (slot : Nat) : Option Node :=
  if (slot - r.first) % 2 ^ 16 ≤ r.last - r.first then some r.node else slots slot

/-- The one `RedisCli` of `getSlotsCache`, with the node that it went to last, is asked to connect to
a node: while it is connected it answers no. -/
def reconnect (cli : Option Node) (n : Node) (w : World) : Bool × Option Node × World :=
  let held := match cli with
    | none => (false, w)
    | some m => w.isConnected net m
  if held.1 then (false, cli, held.2)
  else
    let c := held.2.connect net n
    (c.1, some n, c.2)

/-- A range that has the greatest `int` in it has no end. -/
def getSlotsCache (cli : Option Node) : List Node → World → Option (Bool × World)
  | [], w => some (false, w)
  | n :: ns, w =>
    let (ok, cli, w) := reconnect net cli n w
    if ok then
      let a := w.ask net n [ascii "CLUSTER".toList, ascii "SLOTS".toList]
      if a.1.res.error ∨ a.1.res.obj.toList = [] then getSlotsCache cli ns a.2
      else
        let ranges := a.1.res.obj.toList.map (slotRange conv)
        if ∀ r ∈ ranges, r.last < 2 ^ 31 - 1 then
          some (true, { a.2 with cli := { a.2.cli with
            slots := ranges.foldl insertRange fun _ => none
            dirtyTables := false } })
        else none
    else getSlotsCache cli ns w

/-- The variables of `runCmd`. -/
structure Try where
  world : World
  res : RedisRes
  randomNode : Bool := false
  asking : Bool := false
  slot : Int
  port : Int

variable (cmds : List Str)

/-- The key of `EVAL` and `EVALSHA` is behind the script and the number of the keys. -/
def keyslot : Option Nat := match cmds with
  | [] => none
  | c :: _ =>
    let keyIndex := if c = ascii "EVAL".toList ∨ c = ascii "EVALSHA".toList then 3 else 1
    cmds[keyIndex]?.map assignKeyslot

def conn (t : Try) : Option (Option Node × Try) :=
  if t.randomNode then
    let c := getRandomConn net t.world.cli.startupNodes t.world
    some (c.1, { t with world := c.2, randomNode := c.1.isNone })
  else match keyslot cmds with
    | none => none
    | some slot => (getConnFromSlot net slot t.world).map fun c => (c.1, { t with world := c.2 })

def sent (n : Node) (t : Try) : Try :=
  let w := if t.asking then (t.world.ask net n [ascii "ASKING".toList]).2 else t.world
  let a := w.ask net n cmds
  { t with
    asking := false
    res := a.1.res
    world := match a.1 with
      | .reply r => { a.2 with replies := r :: a.2.replies }
      | _ => a.2 }

/-- What is done about an error.  The parts of a `MOVED` are looked at without counting them. -/
def redirect (t : Try) : Option Try :=
  let connected : RedisRes := { error := false, status := some (ascii "connected".toList) }
  match conv.split (t.res.status.getD []) with
  | [] => none
  | p :: ps =>
    if p = ascii "CLUSTERDOWN".toList then
      some { t with res := { error := true, status := some (ascii "Cluster is Down".toList) } }
    else if p = ascii "ASK".toList then some { t with res := connected, asking := true }
    else if p = ascii "MOVED".toList then match ps with
      | a :: host :: b :: _ =>
        let slot := (conv.toInt32 a).getD t.slot
        let port := (conv.toInt32 b).getD t.port
        let n : Node := ⟨host, (port % 2 ^ 16).toNat⟩
        some { t with
          res := connected
          slot := slot
          port := port
          world := { t.world with cli := { t.world.cli with
            dirtyTables := true
            slots := Function.update t.world.cli.slots (slot % 2 ^ 16).toNat (some n) } } }
      | _ => none
    else some { t with res := connected, randomNode := true }

inductive Turn
  | died
  | answered (w : World)
  | again (t : Try)

def attempt (t : Try) : Turn := match conn net cmds t with
  | none => .died
  | some (none, t) => .again t
  | some (some n, t) =>
    let t := sent net cmds n t
    if t.res.error then match redirect conv t with
      | none => .died
      | some t => .again t
    else .answered (t.world.trigger t.res)

def retry : Nat → Try → Option World
  | 0, t => some (t.world.trigger t.res)
  | ttl + 1, t => match attempt conv net cmds t with
    | .died => none
    | .answered w => some w
    | .again t => retry ttl t

/-- What the variables hold without having been set: `redis_res_t` has no constructor. -/
structure Mem where
  error : Bool
  slot : Int
  port : Int

def Try.init (cli : RedisClusterCli) (mem : Mem) : Try where
  world := { cli := cli }
  res := { error := mem.error }
  slot := mem.slot
  port := mem.port

/-- Before the loop; without a slot table it is not reached. -/
def start (t : Try) : Option (Sum World Try) :=
  if t.world.cli.dirtyTables then
    (getSlotsCache conv net none t.world.cli.startupNodes t.world).map fun c =>
      if c.1 then .inr { t with world := c.2 }
      else .inl (c.2.trigger { error := true, status := some (ascii "not connected".toList) })
  else some (.inr t)

def runCmd (cli : RedisClusterCli) (mem : Mem) : Option World :=
  match start conv net (.init cli mem) with
  | none => none
  | some (.inl w) => some w
  | some (.inr t) => retry conv net cmds 32 t

/-- The event is triggered once, and a result that is not an error is what a node replied to the
command itself. -/
def World.Truthful (w : World) : Prop := ∃ res, w.triggered = [res] ∧
  (res.error = false → ∃ r ∈ w.replies, r.isError = false ∧ res = (Answer.reply r).res)

def Truthful (o : Option World) : Prop := ∃ w, o = some w ∧ w.Truthful

/-- The state before the attempt `k`. -/
def before : Nat → Try → Option Try
  | 0, t => some t
  | k + 1, t => match attempt conv net cmds t with
    | .again t => before k t
    | _ => none

/-- An error has a first word, and that of `MOVED` three more. -/
def WellFormed : List Str → Prop
  | [] => False
  | p :: ps => p = ascii "MOVED".toList → 3 ≤ ps.length

def told (n : Node) (t : Try) : Answer :=
  net.answer (if t.asking then t.world.now + 1 else t.world.now) n cmds

/-- The node of the slot is known, and an error of the node that is asked is well formed. -/
structure Known (t : Try) : Prop where
  node : t.randomNode = false → ∀ slot, keyslot cmds = some slot → t.world.cli.slots slot ≠ none
  wellFormed : ∀ n u, conn net cmds t = some (some n, u) → (told net cmds n u).res.error = true →
    WellFormed (conv.split ((told net cmds n u).res.status.getD []))

/-- A node that is found in this attempt has the answer, or the cluster is down for it. -/
def Down (t : Try) : Prop :=
  ∀ n u, conn net cmds t = some (some n, u) → (told net cmds n u).res.error = true →
    (conv.split ((told net cmds n u).res.status.getD [])).head? = some (ascii "CLUSTERDOWN".toList)

/-- Of `k` attempts, the last one that finds a node has the answer, or the cluster is down for it;
and if none of them finds one, the result was an error to begin with. -/
def Settled (error : Bool) (t : Try) : Nat → Prop
  | 0 => error = true
  | k + 1 => ∀ v, before conv net cmds k t = some v →
    (∀ u, conn net cmds v = some (none, u) → Settled error t k) ∧ Down conv net cmds v

/-- The slot table could be read, when it has to be, and in every attempt the node is known; the
last of the attempts settles it. -/
structure Meets (cli : RedisClusterCli) (mem : Mem) : Prop where
  started : start conv net (.init cli mem) ≠ none
  known : ∀ t, start conv net (.init cli mem) = some (.inr t) → ∀ k < 32, ∀ u,
    before conv net cmds k t = some u → Known conv net cmds u
  settled : ∀ t, start conv net (.init cli mem) = some (.inr t) →
    Settled conv net cmds mem.error t 32

end Model

section Proofs

variable {conv : Conv} {net : Net} {cmds : List Str} {t u : Try} {w : World} {n : Node}

structure Same (w w' : World) : Prop where
  replies : w'.replies = w.replies
  triggered : w'.triggered = w.triggered

theorem getRandomConn_same (ns : List Node) (w : World) : Same w (getRandomConn net ns w).2 := by
  induction ns generalizing w with
  | nil => exact ⟨rfl, rfl⟩
  | cons n ns ih =>
    unfold getRandomConn
    dsimp only
    split
    · split
      · exact ⟨(ih _).replies, (ih _).triggered⟩
      · exact ⟨rfl, rfl⟩
    · exact ⟨(ih _).replies, (ih _).triggered⟩

theorem getConnFromSlot_same {slot : Nat} {c : Option Node × World}
    (h : getConnFromSlot net slot w = some c) : Same w c.2 := by
  obtain ⟨n, -, rfl⟩ := Option.map_eq_some_iff.1 h
  dsimp only
  split
  · exact ⟨rfl, rfl⟩
  · split
    · exact ⟨rfl, rfl⟩
    · exact ⟨(getRandomConn_same _ _).replies, (getRandomConn_same _ _).triggered⟩

theorem conn_same {c : Option Node × Try} (h : conn net cmds t = some c) :
    Same t.world c.2.world := by
  unfold conn at h
  split at h
  · cases h
    exact getRandomConn_same _ _
  · split at h
    · cases h
    · obtain ⟨d, hd, rfl⟩ := Option.map_eq_some_iff.1 h
      exact getConnFromSlot_same hd

theorem conn_res {c : Option Node × Try} (h : conn net cmds t = some c) : c.2.res = t.res := by
  unfold conn at h
  split at h
  · cases h
    rfl
  · split at h
    · cases h
    · obtain ⟨d, -, rfl⟩ := Option.map_eq_some_iff.1 h
      rfl

theorem conn_eq_none_iff {slot : Nat} (hkey : keyslot cmds = some slot) :
    conn net cmds t = none ↔ t.randomNode = false ∧ t.world.cli.slots slot = none := by
  unfold conn
  split
  · next hr => simp [hr]
  · next hr => simp [hr, hkey, getConnFromSlot]

theorem redirect_eq_none_iff :
    redirect conv t = none ↔ ¬ WellFormed (conv.split (t.res.status.getD [])) := by
  unfold redirect
  cases conv.split (t.res.status.getD []) with
  | nil => simp [WellFormed]
  | cons p ps =>
    dsimp only [WellFormed]
    split
    · next hp => simp [hp, ascii]
    · split
      · next hp => simp [hp, ascii]
      · split
        · next hp =>
          split
          · simp [hp]
          · next hps =>
            simp only [hp, true_implies, true_iff, Nat.not_le]
            match ps, hps with
            | [], _ | [_], _ | [_, _], _ => simp
            | a :: b :: c :: _, hps => exact absurd rfl (hps a b c _)
        · next hp => exact ⟨nofun, fun h => absurd (fun hm => absurd hm hp) h⟩

theorem redirect_world (h : redirect conv t = some u) : Same t.world u.world := by
  unfold redirect at h
  split at h
  · cases h
  · dsimp only at h
    split at h
    · cases h
      exact ⟨rfl, rfl⟩
    · split at h
      · cases h
        exact ⟨rfl, rfl⟩
      · split at h
        · split at h
          · cases h
            exact ⟨rfl, rfl⟩
          · cases h
        · cases h
          exact ⟨rfl, rfl⟩

theorem redirect_error_iff (h : redirect conv t = some u) : u.res.error = true ↔
    (conv.split (t.res.status.getD [])).head? = some (ascii "CLUSTERDOWN".toList) := by
  unfold redirect at h
  split at h
  · cases h
  · next p ps hparts =>
    rw [hparts, List.head?_cons, Option.some.injEq]
    dsimp only at h
    split at h
    · next hp =>
      cases h
      exact ⟨fun _ => hp, fun _ => rfl⟩
    · next hp =>
      have hfalse (hu : u.res.error = false) :
          u.res.error = true ↔ p = ascii "CLUSTERDOWN".toList :=
        ⟨fun he => absurd (hu.symm.trans he) nofun, fun he => absurd he hp⟩
      split at h
      · cases h
        exact hfalse rfl
      · split at h
        · split at h
          · cases h
            exact hfalse rfl
          · cases h
        · cases h
          exact hfalse rfl

/-- The command was asked for, and every reply to it was an error. -/
structure Open (t : Try) : Prop where
  triggered : t.world.triggered = []
  replies : ∀ r ∈ t.world.replies, r.isError = true

theorem Open.same (h : Open t) (hw : Same t.world u.world) : Open u :=
  ⟨hw.triggered.trans h.triggered, hw.replies.symm ▸ h.replies⟩

theorem res_error_eq_isError (r : RedisReply) : (Answer.reply r).res.error = r.isError := by
  cases r <;> rfl

variable (net cmds) in
theorem sent_cases (n : Node) (t : Try) :
    (sent net cmds n t).world.triggered = t.world.triggered ∧
    (((sent net cmds n t).res.error = true ∧
        (sent net cmds n t).world.replies = t.world.replies) ∨
      ∃ r, (sent net cmds n t).world.replies = r :: t.world.replies ∧
        (sent net cmds n t).res = (Answer.reply r).res) := by
  obtain ⟨w, hw, hsent⟩ : ∃ w : World, Same t.world w ∧ sent net cmds n t = { t with
      asking := false
      res := (w.ask net n cmds).1.res
      world := match (w.ask net n cmds).1 with
        | .reply r => { (w.ask net n cmds).2 with replies := r :: (w.ask net n cmds).2.replies }
        | _ => (w.ask net n cmds).2 } := by
    refine ⟨_, ?_, rfl⟩
    split
    · exact ⟨rfl, rfl⟩
    · exact ⟨rfl, rfl⟩
  rw [hsent]
  cases ha : (w.ask net n cmds).1 with
  | notConnected | timedOut | nullReply => exact ⟨hw.triggered, .inl ⟨rfl, hw.replies⟩⟩
  | reply r => exact ⟨hw.triggered, .inr ⟨r, congrArg (r :: ·) hw.replies, rfl⟩⟩

theorem sent_res (n : Node) (t : Try) : (sent net cmds n t).res = (told net cmds n t).res := by
  unfold sent told
  split <;> rfl

theorem Open.sent_error (h : Open t) (he : (told net cmds n t).res.error = true) :
    Open (sent net cmds n t) := by
  rw [← sent_res] at he
  obtain ⟨htrig, ⟨-, hr⟩ | ⟨r, hr, hres⟩⟩ := sent_cases net cmds n t
  · exact ⟨htrig.trans h.triggered, hr.symm ▸ h.replies⟩
  · refine ⟨htrig.trans h.triggered, fun q hq => ?_⟩
    rw [hr] at hq
    obtain rfl | hq := List.mem_cons.1 hq
    · rw [← res_error_eq_isError, ← hres, he]
    · exact h.replies q hq

variable (conv net cmds t) in
theorem attempt_cases :
    (attempt conv net cmds t = .died ∧ (conn net cmds t = none ∨
      ∃ n u, conn net cmds t = some (some n, u) ∧ (told net cmds n u).res.error = true ∧
        redirect conv (sent net cmds n u) = none)) ∨
    (∃ u, conn net cmds t = some (none, u) ∧ attempt conv net cmds t = .again u) ∨
    (∃ n u v, conn net cmds t = some (some n, u) ∧ (told net cmds n u).res.error = true ∧
      redirect conv (sent net cmds n u) = some v ∧ attempt conv net cmds t = .again v) ∨
    (∃ n u, conn net cmds t = some (some n, u) ∧ (told net cmds n u).res.error = false ∧
      attempt conv net cmds t =
        .answered ((sent net cmds n u).world.trigger (told net cmds n u).res)) := by
  unfold attempt
  split
  · next hc => exact .inl ⟨rfl, .inl hc⟩
  · next u hc => exact .inr (.inl ⟨u, hc, rfl⟩)
  · next n u hc =>
    dsimp only
    rw [sent_res]
    split
    · next he =>
      split
      · next hr => exact .inl ⟨rfl, .inr ⟨n, u, hc, he, hr⟩⟩
      · next v hr => exact .inr (.inr (.inl ⟨n, u, v, hc, he, hr, rfl⟩))
    · next he => exact .inr (.inr (.inr ⟨n, u, hc, by simpa using he, rfl⟩))

theorem attempt_died_iff (hkey : (keyslot cmds).isSome) :
    attempt conv net cmds t = .died ↔ ¬ Known conv net cmds t := by
  obtain ⟨slot, hkey⟩ := Option.isSome_iff_exists.1 hkey
  have hnode {c : Option Node × Try} (hc : conn net cmds t = some c) (hrand : t.randomNode = false)
      (slot' : Nat) (hs : keyslot cmds = some slot') : t.world.cli.slots slot' ≠ none := by
    intro hnone
    obtain rfl : slot = slot' := Option.some.inj (hkey.symm.trans hs)
    rw [(conn_eq_none_iff hkey).2 ⟨hrand, hnone⟩] at hc
    cases hc
  have lives {e : Turn} (hatt : attempt conv net cmds t = e) (hne : e ≠ .died)
      (hknown : Known conv net cmds t) :
      attempt conv net cmds t = .died ↔ ¬ Known conv net cmds t :=
    ⟨fun hd => absurd (hatt.symm.trans hd) hne, fun hk => absurd hknown hk⟩
  obtain ⟨hatt, hc | ⟨n, u, hc, he, hr⟩⟩ | ⟨u, hc, hatt⟩ | ⟨n, u, v, hc, he, hr, hatt⟩ |
    ⟨n, u, hc, he, hatt⟩ := attempt_cases conv net cmds t
  · refine ⟨fun _ hk => ?_, fun _ => hatt⟩
    obtain ⟨hrand, hnone⟩ := (conn_eq_none_iff hkey).1 hc
    exact hk.node hrand slot hkey hnone
  · refine ⟨fun _ hk => redirect_eq_none_iff.1 hr ?_, fun _ => hatt⟩
    rw [sent_res]
    exact hk.wellFormed n u hc he
  · refine lives hatt nofun ⟨hnode hc, fun n v hv => ?_⟩
    rw [hc] at hv
    cases hv
  · refine lives hatt nofun ⟨hnode hc, fun m w hw _ => ?_⟩
    rw [hc] at hw
    cases hw
    by_contra hbad
    rw [redirect_eq_none_iff.2 (by rwa [sent_res])] at hr
    cases hr
  · refine lives hatt nofun ⟨hnode hc, fun m w hw hew => ?_⟩
    rw [hc] at hw
    cases hw
    rw [he] at hew
    cases hew

theorem Open.attempt (h : Open t) (ha : attempt conv net cmds t = .again u) : Open u := by
  obtain ⟨hatt, -⟩ | ⟨v, hc, hatt⟩ | ⟨n, v, v', hc, he, hr, hatt⟩ | ⟨n, v, -, -, hatt⟩ :=
    attempt_cases conv net cmds t
  all_goals rw [hatt] at ha
  · cases ha
  · cases ha
    exact h.same (conn_same hc)
  · cases ha
    exact ((h.same (conn_same hc)).sent_error he).same (redirect_world hr)
  · cases ha

theorem truthful_of_answered (h : Open t) (ha : attempt conv net cmds t = .answered w) :
    w.Truthful := by
  obtain ⟨hatt, -⟩ | ⟨v, hc, hatt⟩ | ⟨n, v, v', hc, he, hr, hatt⟩ | ⟨n, v, hc, he, hatt⟩ :=
    attempt_cases conv net cmds t
  all_goals rw [hatt] at ha
  · cases ha
  · cases ha
  · cases ha
  · cases ha
    have hv := h.same (conn_same hc)
    rw [← sent_res] at he ⊢
    obtain ⟨htrig, ⟨he', -⟩ | ⟨r, hr, hres⟩⟩ := sent_cases net cmds n v
    · rw [he] at he'
      cases he'
    · refine ⟨_, congrArg (_ :: ·) (htrig.trans hv.triggered), fun _ => ⟨r, ?_, ?_, hres⟩⟩
      · rw [World.trigger, hr]
        exact List.mem_cons_self
      · rw [← res_error_eq_isError, ← hres, he]

theorem before_succ {k : Nat} {t u : Try} : before conv net cmds (k + 1) t = some u ↔
    ∃ v, before conv net cmds k t = some v ∧ attempt conv net cmds v = .again u := by
  induction k generalizing t with
  | zero =>
    unfold before
    cases ha : attempt conv net cmds t with
    | again v => simp [before, ha]
    | _ => simp [ha]
  | succ k ih =>
    rw [before]
    cases ha : attempt conv net cmds t with
    | again v =>
      dsimp only
      rw [ih]
      simp only [before, ha]
    | _ => simp [before, ha]

theorem error_attempt_iff (hknown : Known conv net cmds t) : (∀ u, attempt conv net cmds t =
    .again u → u.res.error = true) ↔ (∀ u, conn net cmds t = some (none, u) → t.res.error = true) ∧
      Down conv net cmds t := by
  obtain ⟨hatt, hc | ⟨n, u, hc, he, hr⟩⟩ | ⟨u, hc, hatt⟩ | ⟨n, u, v, hc, he, hr, hatt⟩ |
    ⟨n, u, hc, he, hatt⟩ := attempt_cases conv net cmds t
  · rw [hatt, Down, hc]
    exact iff_of_true nofun ⟨nofun, nofun⟩
  · refine absurd ?_ (redirect_eq_none_iff.1 hr)
    rw [sent_res]
    exact hknown.wellFormed n u hc he
  · rw [hatt, Down, hc]
    refine ⟨fun h => ⟨fun _ _ => ?_, nofun⟩, fun h w hw => ?_⟩
    · rw [← conn_res hc]
      exact h u rfl
    · cases hw
      rw [conn_res hc]
      exact h.1 u rfl
  · rw [hatt, Down, hc]
    have hdown := redirect_error_iff hr
    rw [sent_res] at hdown
    refine ⟨fun h => ⟨nofun, fun m w hw _ => ?_⟩, fun h w hw => ?_⟩
    · cases hw
      exact hdown.1 (h v rfl)
    · cases hw
      exact hdown.2 (h.2 n u rfl he)
  · rw [hatt, Down, hc]
    refine iff_of_true nofun ⟨nofun, fun m w hw hew => ?_⟩
    cases hw
    rw [he] at hew
    cases hew

theorem settled_iff (t : Try) (k : Nat)
    (hknown : ∀ j < k, ∀ v, before conv net cmds j t = some v → Known conv net cmds v) :
    (∀ u, before conv net cmds k t = some u → u.res.error = true) ↔
      Settled conv net cmds t.res.error t k := by
  induction k with
  | zero => exact ⟨fun h => h t rfl, fun h u hu => Option.some.inj hu ▸ h⟩
  | succ k ih =>
    have hk := ih fun j hj => hknown j (Nat.lt_succ_of_lt hj)
    have hone {v : Try} (hv : before conv net cmds k t = some v) :
        v.res.error = true ↔ Settled conv net cmds t.res.error t k := by
      rw [← hk, hv]
      exact ⟨fun he u hu => Option.some.inj hu ▸ he, fun h => h v rfl⟩
    have hstep {v : Try} (hv : before conv net cmds k t = some v) :
        (∀ u, attempt conv net cmds v = .again u → u.res.error = true) ↔
          (∀ u, conn net cmds v = some (none, u) → Settled conv net cmds t.res.error t k) ∧
            Down conv net cmds v := by
      rw [error_attempt_iff (hknown k (Nat.lt_succ_self k) v hv), hone hv]
    constructor
    · intro h v hv
      exact (hstep hv).1 fun u hu => h u (before_succ.2 ⟨v, hv, hu⟩)
    · intro h u hu
      obtain ⟨v, hv, hu⟩ := before_succ.1 hu
      exact (hstep hv).2 (h v hv) u hu

theorem not_truthful_none : ¬ Truthful none := by
  rintro ⟨w, hw, -⟩
  cases hw

theorem truthful_last (h : Open t) :
    Truthful (some (t.world.trigger t.res)) ↔ t.res.error = true := by
  refine ⟨?_, fun he => ⟨_, rfl, t.res, congrArg (_ :: ·) h.triggered, fun hf => ?_⟩⟩
  · rintro ⟨w, hw, res, hres, htrue⟩
    cases hw
    obtain rfl : t.res = res := by
      rw [World.trigger, h.triggered] at hres
      exact (List.cons.inj hres).1
    by_contra he
    obtain ⟨r, hr, hno, -⟩ := htrue (by simpa using he)
    rw [h.replies r hr] at hno
    cases hno
  · rw [he] at hf
    cases hf

/-- What the attempts have to meet, when there are `ttl` of them. -/
structure MeetsFrom (conv : Conv) (net : Net) (cmds : List Str) (ttl : Nat) (t : Try) : Prop where
  known : ∀ k < ttl, ∀ v, before conv net cmds k t = some v → Known conv net cmds v
  left : ∀ v, before conv net cmds ttl t = some v → v.res.error = true

theorem MeetsFrom.succ_iff (ttl : Nat) (ha : attempt conv net cmds t = .again u)
    (hknown : Known conv net cmds t) :
    MeetsFrom conv net cmds (ttl + 1) t ↔ MeetsFrom conv net cmds ttl u := by
  have hbefore (k : Nat) : before conv net cmds (k + 1) t = before conv net cmds k u := by
    rw [before, ha]
  refine ⟨fun h => ⟨?_, ?_⟩, fun h => ⟨?_, ?_⟩⟩
  · exact fun k hlt v hv => h.known (k + 1) (Nat.succ_lt_succ hlt) v ((hbefore k).trans hv)
  · exact fun v hv => h.left v ((hbefore ttl).trans hv)
  · intro k hlt v hv
    cases k with
    | zero =>
      cases hv
      exact hknown
    | succ k => exact h.known k (Nat.lt_of_succ_lt_succ hlt) v ((hbefore k).symm.trans hv)
  · exact fun v hv => h.left v ((hbefore ttl).symm.trans hv)

theorem retry_truthful_iff (hkey : (keyslot cmds).isSome) (ttl : Nat) (h : Open t) :
    Truthful (retry conv net cmds ttl t) ↔ MeetsFrom conv net cmds ttl t := by
  induction ttl generalizing t with
  | zero =>
    rw [retry, truthful_last h]
    exact ⟨fun he => ⟨nofun, fun v hv => Option.some.inj hv ▸ he⟩, fun hm => hm.left t rfl⟩
  | succ ttl ih =>
    rw [retry]
    cases ha : attempt conv net cmds t with
    | died =>
      have hno := (attempt_died_iff hkey).1 ha
      refine ⟨fun htrue => absurd htrue not_truthful_none, fun hm => ?_⟩
      exact absurd (hm.known 0 (Nat.succ_pos _) t rfl) hno
    | answered w =>
      have hknown : Known conv net cmds t := by
        by_contra hno
        rw [(attempt_died_iff hkey).2 hno] at ha
        cases ha
      have hend (k : Nat) : before conv net cmds (k + 1) t = none := by rw [before, ha]
      refine ⟨fun _ => ⟨fun k _ v hv => ?_, fun v hv => ?_⟩,
        fun _ => ⟨w, rfl, truthful_of_answered h ha⟩⟩
      · cases k with
        | zero =>
          cases hv
          exact hknown
        | succ k =>
          rw [hend] at hv
          cases hv
      · rw [hend] at hv
        cases hv
    | again u =>
      have hknown : Known conv net cmds t := by
        by_contra hno
        rw [(attempt_died_iff hkey).2 hno] at ha
        cases ha
      exact (ih (h.attempt ha)).trans (MeetsFrom.succ_iff ttl ha hknown).symm

theorem reconnect_same (cli : Option Node) (n : Node) (w : World) :
    Same w (reconnect net cli n w).2.2 := by
  unfold reconnect
  cases cli with
  | none => exact ⟨rfl, rfl⟩
  | some m =>
    dsimp only
    split <;> exact ⟨rfl, rfl⟩

theorem getSlotsCache_same {cli : Option Node} {ns : List Node} {c : Bool × World}
    (h : getSlotsCache conv net cli ns w = some c) : Same w c.2 := by
  induction ns generalizing cli w with
  | nil =>
    cases h
    exact ⟨rfl, rfl⟩
  | cons n ns ih =>
    have hcli : Same w (reconnect net cli n w).2.2 := reconnect_same cli n w
    unfold getSlotsCache at h
    dsimp only at h
    split at h
    · split at h
      · exact ⟨(ih h).replies.trans hcli.replies, (ih h).triggered.trans hcli.triggered⟩
      · split at h
        · cases h
          exact ⟨hcli.replies, hcli.triggered⟩
        · cases h
    · exact ⟨(ih h).replies.trans hcli.replies, (ih h).triggered.trans hcli.triggered⟩

variable (conv net) in
theorem start_cases (cli : RedisClusterCli) (mem : Mem) :
    start conv net (.init cli mem) = none ∨
    (∃ w, start conv net (.init cli mem) = some (.inl w) ∧ w.Truthful) ∨
    ∃ t, start conv net (.init cli mem) = some (.inr t) ∧ Open t ∧ t.res.error = mem.error := by
  unfold start
  split
  · cases hc : getSlotsCache conv net none (Try.init cli mem).world.cli.startupNodes
      (Try.init cli mem).world with
    | none => exact .inl rfl
    | some c =>
      obtain ⟨ok, w⟩ := c
      have hsame := getSlotsCache_same hc
      cases ok with
      | false => exact .inr (.inl ⟨_, rfl, _, congrArg (_ :: ·) hsame.triggered, nofun⟩)
      | true =>
        refine .inr (.inr ⟨_, rfl, ⟨hsame.triggered, fun r hr => ?_⟩, rfl⟩)
        rw [hsame.replies] at hr
        cases hr
  · exact .inr (.inr ⟨_, rfl, ⟨rfl, nofun⟩, rfl⟩)

theorem runCmd_truthful_iff {cli : RedisClusterCli} {mem : Mem} (hkey : (keyslot cmds).isSome) :
    Truthful (runCmd conv net cmds cli mem) ↔ Meets conv net cmds cli mem := by
  unfold runCmd
  obtain hs | ⟨w, hs, htrue⟩ | ⟨t, hs, ht, he⟩ := start_cases conv net cli mem
  · rw [hs]
    exact ⟨fun htrue => absurd htrue not_truthful_none, fun hm => absurd hs hm.started⟩
  · rw [hs]
    refine ⟨fun _ => ⟨?_, fun t ht => ?_, fun t ht => ?_⟩, fun _ => ⟨w, rfl, htrue⟩⟩
    all_goals rw [hs] at *
    · nofun
    · cases ht
    · cases ht
  · rw [hs]
    refine (retry_truthful_iff hkey 32 ht).trans ⟨fun hm => ⟨?_, fun u hu => ?_, fun u hu => ?_⟩,
      fun hm => ⟨hm.known t hs, ?_⟩⟩
    · rw [hs]
      nofun
    · rw [hs] at hu
      cases hu
      exact hm.known
    · rw [hs] at hu
      cases hu
      rw [← he]
      exact (settled_iff t 32 hm.known).1 hm.left
    · have hsettled := hm.settled t hs
      rw [← he] at hsettled
      exact (settled_iff t 32 (hm.known t hs)).2 hsettled

end Proofs

section Runs

def someNode : Node := ⟨ascii "10.0.0.1".toList, 7000⟩

def oneNode : RedisClusterCli where
  startupNodes := [someNode]
  slots := fun _ => some someNode
  dirtyTables := false

def noConv : Conv where
  toInt _ := 0
  toStr _ := []
  toInt32 _ := none
  split s := s.splitOnP fun b => b = 32 || b = 58

/-- The node is alive and gives this answer to all but a `PING`. -/
def answering (r : RedisReply) : Net where
  connect _ _ := true
  isConnected _ _ := true
  answer _ _ cmds := .reply (if cmds = [ascii "PING".toList] then .status (ascii "PONG".toList)
    else r)

def getKey : List Str := [ascii "GET".toList, ascii "key".toList]

theorem runCmd_truthful_iff_get :
    Truthful (runCmd noConv (answering (.string [118])) getKey oneNode ⟨false, 0, 0⟩) ∧
      Meets noConv (answering (.string [118])) getKey oneNode ⟨false, 0, 0⟩ := by
  have htrue : Truthful (runCmd noConv (answering (.string [118])) getKey oneNode ⟨false, 0, 0⟩) :=
    ⟨_, rfl, _, rfl, fun _ => ⟨_, .head _, rfl, rfl⟩⟩
  exact ⟨htrue, (runCmd_truthful_iff (by decide)).1 htrue⟩

/-- A node that refuses a command is asked again, and the last refusal is reported as a success. -/
theorem refused_is_connected : ¬ Truthful (runCmd noConv
    (answering (.error (ascii "WRONGTYPE no list".toList))) getKey oneNode ⟨true, 0, 0⟩) := by
  rintro ⟨w, hw, res, hres, htrue⟩
  have hrun : (runCmd noConv (answering (.error (ascii "WRONGTYPE no list".toList))) getKey oneNode
      ⟨true, 0, 0⟩).map (fun w => (w.triggered.map (·.error), w.replies.all (·.isError))) =
      some ([false], true) := by decide
  rw [hw, Option.map_some, Option.some.injEq, Prod.mk.injEq, hres, List.all_eq_true] at hrun
  obtain ⟨r, hr, hno, -⟩ := htrue (List.cons.inj hrun.1).1
  rw [hrun.2 r hr] at hno
  cases hno

end Runs

end Okws.Redis
