import Mathlib
import Okws.Lib.Transition
import Okws.Redis
import Okws.Scalar

/-! `evalLua` of `RedisCli` and of `RedisClusterCli`: a node gets a script once, and from then on
its digest. -/

namespace Okws.Redis

open Lib

/-- A call of `evalLua`. -/
structure EvalLua where
  script : Str
  ssha1 : Str
  keys : List Str
  args : List Str

def EvalLua.cmds (c : EvalLua) (known : Bool) : List Str :=
  (if known then [ascii "EVALSHA".toList, c.ssha1] else [ascii "EVAL".toList, cstr c.script]) ++
    Scalar.natural c.keys.length :: (c.keys ++ c.args)

inductive Entry
  | sent (n : Node) (cmds : List Str)
  | ran (n : Node) (cmds : List Str)

/-- The commands of `evalLua`: those on their way to a node, and all that was sent and run, the
newest first. -/
structure Traffic where
  wire : List (Node × List Str) := []
  log : List Entry := []

namespace Traffic

def send (t : Traffic) (n : Node) (cmds : List Str) : Traffic where
  wire := (n, cmds) :: t.wire
  log := .sent n cmds :: t.log

def run (t : Traffic) (n : Node) (cmds : List Str) : Option Traffic :=
  if (n, cmds) ∈ t.wire then
    some { wire := t.wire.erase (n, cmds), log := .ran n cmds :: t.log }
  else none

def lose (t : Traffic) (n : Node) (cmds : List Str) : Option Traffic :=
  if (n, cmds) ∈ t.wire then some { t with wire := t.wire.erase (n, cmds) } else none

end Traffic

section Digests

-- The digest that the nodes know a script by.
variable (sha1 : Str → Str)

def Ran (log : List Entry) (n : Node) (digest : Str) : Prop := ∃ script rest,
  Entry.ran n (ascii "EVAL".toList :: script :: rest) ∈ log ∧ sha1 script = digest

def OnItsWay (t : Traffic) (n : Node) (digest : Str) : Prop := ∃ script rest,
  (n, ascii "EVAL".toList :: script :: rest) ∈ t.wire ∧ sha1 script = digest

/-- A digest is sent only to a node that has run the script before. -/
def Sound (log : List Entry) : Prop := ∀ new old n digest rest,
  log = new ++ .sent n (ascii "EVALSHA".toList :: digest :: rest) :: old → Ran sha1 old n digest

end Digests

/-- `node` is `m_host` and `m_port`, where the context `m_c` leads to if there is one; `connecting`
counts the calls of `connect` that wait for their connection. -/
structure RedisCli where
  node : Node := ⟨[], 0⟩
  context : Bool := false
  connected : Bool := false
  reconnecting : Bool := false
  recon : Bool := true
  connecting : Nat := 0
  evalshas : List Str := []
  traffic : Traffic := {}

namespace RedisCli

def isConnected (s : RedisCli) : Bool := s.connected && !s.reconnecting

/-- `err` says that the connection fails at once. -/
def connect (s : RedisCli) (n : Node) (err : Bool) : RedisCli :=
  if s.isConnected then s
  else { s with
    node := n
    context := true
    connecting := if err then s.connecting else s.connecting + 1 }

/-- The rest of `connect`. -/
def connects (s : RedisCli) (ok : Bool) : Option RedisCli := match s.connecting with
  | 0 => none
  | k + 1 => some (if ok then { s with connecting := k, connected := true, reconnecting := false }
    else { s with connecting := k })

def reconnect (s : RedisCli) (err : Bool) : RedisCli :=
  if s.recon then { s with reconnecting := true }.connect s.node err else s

def disconnect (s : RedisCli) (err : Bool) : Option RedisCli :=
  if s.connected then
    if s.context then some { s with connected := false, context := !err } else none
  else some { s with context := false }

def disconnectHandler (s : RedisCli) (ok err : Bool) : Option RedisCli :=
  if ok = false ∧ s.context = false then none
  else if ok = false ∧ s.recon then some (s.reconnect err)
  else if s.context then some { s with connected := false, context := false }
  else some s

def runCmd (s : RedisCli) (cmds : List Str) : Option RedisCli :=
  if s.isConnected then
    if s.context then some { s with traffic := s.traffic.send s.node cmds } else none
  else some s

def evalLua (s : RedisCli) (c : EvalLua) : Option RedisCli :=
  if c.ssha1 ∈ s.evalshas then s.runCmd (c.cmds true)
  else { s with evalshas := c.ssha1 :: s.evalshas }.runCmd (c.cmds false)

inductive Event
  | setReconnect (recon : Bool)
  | connect (n : Node) (err : Bool)
  | connects (ok : Bool)
  | reconnect (err : Bool)
  | disconnect (err : Bool)
  | disconnectHandler (ok err : Bool)
  | evalLua (c : EvalLua)
  | runs (n : Node) (cmds : List Str)
  | loses (n : Node) (cmds : List Str)

def step (s : RedisCli) : Event → Option RedisCli
  | .setReconnect recon => some { s with recon := recon }
  | .connect n err => some (s.connect n err)
  | .connects ok => s.connects ok
  | .reconnect err => some (s.reconnect err)
  | .disconnect err => s.disconnect err
  | .disconnectHandler ok err => s.disconnectHandler ok err
  | .evalLua c => s.evalLua c
  | .runs n cmds => (s.traffic.run n cmds).map fun t => { s with traffic := t }
  | .loses n cmds => (s.traffic.lose n cmds).map fun t => { s with traffic := t }

def system : System RedisCli Event where
  init s := s = {}
  step := step

/-- The client stays with its node once it has evaluated a script; a script comes with its digest,
for the first time when the client is connected, and again when it has arrived; none is lost. -/
def Meets (sha1 : Str → Str) (s : RedisCli) : Event → Prop
  | .connect n _ => s.isConnected = true ∨ s.evalshas = [] ∨ n = s.node
  | .evalLua c => sha1 (cstr c.script) = c.ssha1 ∧
      if c.ssha1 ∈ s.evalshas then ¬ OnItsWay sha1 s.traffic s.node c.ssha1
      else s.isConnected = true
  | .loses _ cmds => cmds.head? ≠ some (ascii "EVAL".toList)
  | _ => True

end RedisCli

/-- What a `runCmd` of the cluster waits for: the table of the slots, a connection to the node of a
slot or to any, the answer to `ASKING`, the reply, or the end of a second. -/
inductive Phase
  | refresh
  | fromSlot (n : Node)
  | random
  | asking (n : Node)
  | sent (n : Node)
  | sleeping

/-- What a command was made for: a script to be sent to the node it is recorded for, or a digest. -/
inductive Duty
  | free
  | eval (n : Node) (digest : Str)
  | evalsha (n : Node)

/-- A `runCmd` of the cluster with its variables; `lua` says that `evalLua` called it. -/
structure Task where
  cmds : List Str
  lua : Bool
  duty : Duty := .free
  ttl : Nat := 32
  randomNode : Bool := false
  asking : Bool := false
  slot : Int
  port : Int
  phase : Phase := .refresh

namespace Task

/-- From the top of the loop to the next wait, or to the end.  Without an entry for the slot, a null
pointer is followed. -/
def top (cli : RedisClusterCli) (t : Task) : Option (Option Task) := match t.ttl with
  | 0 => some none
  | ttl + 1 =>
    if t.randomNode then some (some { t with ttl := ttl, phase := .random })
    else ((keyslot t.cmds).bind cli.slots).map fun n =>
      some { t with ttl := ttl, phase := .fromSlot n }

def discharge (t : Task) (n : Node) : Duty := match t.duty with
  | .eval m digest => if m = n then .free else .eval m digest
  | d => d

/-- `up` says that the connection is still there. -/
def send (t : Task) (n : Node) (up : Bool) (tr : Traffic) : Task × Traffic :=
  if up then
    ({ t with phase := .sent n, duty := t.discharge n },
      if t.lua then tr.send n t.cmds else tr)
  else ({ t with phase := .sent n }, tr)

def candidates (cli : RedisClusterCli) (t : Task) : List Node := match t.phase with
  | .fromSlot n => n :: cli.startupNodes
  | .random => cli.startupNodes
  | _ => []

def waitsForNode (t : Task) : Bool := match t.phase with
  | .fromSlot _ | .random => true
  | _ => false

end Task

structure LuaCluster where
  cli : RedisClusterCli
  evalshas : Node → List Str := fun _ => []
  tasks : List Task := []
  traffic : Traffic := {}

namespace LuaCluster

def put (s : LuaCluster) (i : Nat) : Option Task → LuaCluster
  | some t => { s with tasks := s.tasks.set i t }
  | none => { s with tasks := s.tasks.eraseIdx i }

/-- From the beginning of `runCmd` to its first wait. -/
def start (s : LuaCluster) (t : Task) : Option LuaCluster :=
  if s.cli.dirtyTables then some { s with tasks := s.tasks ++ [t] }
  else (t.top s.cli).map fun o => { s with tasks := s.tasks ++ o.toList }

def evalLua (s : LuaCluster) (c : EvalLua) (mem : Mem) : Option LuaCluster :=
  c.keys.head?.bind fun key =>
    let task known duty : Task :=
      { cmds := c.cmds known, lua := true, duty := duty, slot := mem.slot, port := mem.port }
    match s.cli.slots (assignKeyslot key) with
    | none => s.start (task false .free)
    | some n =>
      if c.ssha1 ∈ s.evalshas n then s.start (task true (.evalsha n))
      else
        { s with evalshas := Function.update s.evalshas n (c.ssha1 :: s.evalshas n) }.start
          (task false (.eval n c.ssha1))

/-- The answer to `CLUSTER SLOTS`, or that no node gave one. -/
def refreshed (s : LuaCluster) (i : Nat) (t : Task) : Option (List SlotRange) → Option LuaCluster
  | none => some (s.put i none)
  | some ranges =>
    if ranges ≠ [] ∧ ∀ r ∈ ranges, r.last < 2 ^ 31 - 1 then
      let cli := { s.cli with
        slots := ranges.foldl insertRange fun _ => none
        dirtyTables := false }
      (t.top cli).map fun o => { s with cli := cli }.put i o
    else none

def connects (s : LuaCluster) (i : Nat) (t : Task) (up : Bool) : Option Node → Option LuaCluster
  | none => (t.top s.cli).map (s.put i)
  | some n =>
    if n ∈ t.candidates s.cli then
      let t := { t with randomNode := false }
      if t.asking then some (s.put i (some { t with asking := false, phase := .asking n }))
      else
        let c := t.send n up s.traffic
        some ({ s with traffic := c.2 }.put i (some c.1))
    else none

def asked (s : LuaCluster) (i : Nat) (t : Task) (n : Node) (up : Bool) : LuaCluster :=
  let c := t.send n up s.traffic
  { s with traffic := c.2 }.put i (some c.1)

def replied (conv : Conv) (s : LuaCluster) (i : Nat) (t : Task) (a : Answer) : Option LuaCluster :=
  if a.res.error then
    let v : Try := ⟨{ cli := s.cli }, a.res, t.randomNode, t.asking, t.slot, t.port⟩
    (redirect conv v).map fun u => { s with cli := u.world.cli }.put i (some { t with
      randomNode := u.randomNode
      asking := u.asking
      slot := u.slot
      port := u.port
      phase := .sleeping })
  else some (s.put i none)

inductive Event
  | evalLua (c : EvalLua) (mem : Mem)
  | runCmd (cmds : List Str) (mem : Mem)
  | refreshed (i : Nat) (ranges : Option (List SlotRange))
  | connects (i : Nat) (n : Option Node) (up : Bool)
  | asked (i : Nat) (up : Bool)
  | replied (i : Nat) (a : Answer)
  | wakes (i : Nat)
  | runs (n : Node) (cmds : List Str)
  | loses (n : Node) (cmds : List Str)

def step (conv : Conv) (s : LuaCluster) : Event → Option LuaCluster
  | .evalLua c mem => s.evalLua c mem
  | .runCmd cmds mem => s.start { cmds := cmds, lua := false, slot := mem.slot, port := mem.port }
  | .refreshed i ranges => s.tasks[i]?.bind fun t => match t.phase with
    | .refresh => s.refreshed i t ranges
    | _ => none
  | .connects i n up => s.tasks[i]?.bind fun t =>
    if t.waitsForNode then s.connects i t up n else none
  | .asked i up => s.tasks[i]?.bind fun t => match t.phase with
    | .asking n => some (s.asked i t n up)
    | _ => none
  | .replied i a => s.tasks[i]?.bind fun t => match t.phase with
    | .sent _ => s.replied conv i t a
    | _ => none
  | .wakes i => s.tasks[i]?.bind fun t => match t.phase with
    | .sleeping => (t.top s.cli).map (s.put i)
    | _ => none
  | .runs n cmds => (s.traffic.run n cmds).map fun t => { s with traffic := t }
  | .loses n cmds => (s.traffic.lose n cmds).map fun t => { s with traffic := t }

def system (conv : Conv) : System LuaCluster Event where
  init s := s.evalshas = (fun _ => []) ∧ s.tasks = [] ∧ s.traffic = {}
  step := step conv

/-- The command goes to the node it was made for, and a script does before the attempts are over. -/
def Goes (n : Option Node) (up : Bool) (ttl : Nat) : Duty → Prop
  | .free => True
  | .eval m _ => (n = none ∧ ttl ≠ 0) ∨ (n = some m ∧ up = true)
  | .evalsha m => n = none ∨ n = some m

/-- A script comes with its digest, and again when it has arrived at the node of the slot; none is
lost, and what was made for a node goes there. -/
def Meets (sha1 : Str → Str) (s : LuaCluster) : Event → Prop
  | .evalLua c _ => sha1 (cstr c.script) = c.ssha1 ∧
      ∀ key ∈ c.keys.head?, ∀ n ∈ s.cli.slots (assignKeyslot key), c.ssha1 ∈ s.evalshas n →
        ¬ OnItsWay sha1 s.traffic n c.ssha1 ∧ ∀ t ∈ s.tasks, t.duty ≠ .eval n c.ssha1
  | .refreshed i ranges => ranges = none → ∀ t ∈ s.tasks[i]?, ∀ n digest, t.duty ≠ .eval n digest
  | .connects i n up => ∀ t ∈ s.tasks[i]?, Goes n up t.ttl t.duty
  | .loses _ cmds => cmds.head? ≠ some (ascii "EVAL".toList)
  | _ => True

end LuaCluster

section Traffic

variable {sha1 : Str → Str} {log : List Entry} {e : Entry} {t t' : Traffic} {n : Node}
  {digest : Str} {cmds : List Str}

theorem Ran.cons (h : Ran sha1 log n digest) (e : Entry) : Ran sha1 (e :: log) n digest := by
  obtain ⟨script, rest, hmem, hd⟩ := h
  exact ⟨script, rest, .tail _ hmem, hd⟩

theorem sound_nil : Sound sha1 [] := by
  intro new old n digest rest h
  cases new <;> cases h

theorem Sound.cons (h : Sound sha1 log) (he : ∀ n digest rest,
    e = .sent n (ascii "EVALSHA".toList :: digest :: rest) → Ran sha1 log n digest) :
    Sound sha1 (e :: log) := by
  intro new old n digest rest hlog
  cases new with
  | nil =>
    obtain ⟨hsent, rfl⟩ := List.cons.inj hlog
    exact he n digest rest hsent
  | cons _ new => exact h new old n digest rest (List.cons.inj hlog).2

/-- A script that was sent to a node and was not lost. -/
def Held (sha1 : Str → Str) (t : Traffic) (n : Node) (digest : Str) : Prop :=
  Ran sha1 t.log n digest ∨ OnItsWay sha1 t n digest

theorem Held.ran (h : Held sha1 t n digest) (hway : ¬ OnItsWay sha1 t n digest) :
    Ran sha1 t.log n digest :=
  h.resolve_right hway

structure Grows (sha1 : Str → Str) (t t' : Traffic) : Prop where
  ran : ∀ n digest, Ran sha1 t.log n digest → Ran sha1 t'.log n digest
  held : ∀ n digest, Held sha1 t n digest → Held sha1 t' n digest

theorem Grows.refl (t : Traffic) : Grows sha1 t t := ⟨fun _ _ h => h, fun _ _ h => h⟩

theorem grows_send (n : Node) (cmds : List Str) : Grows sha1 t (t.send n cmds) where
  ran _ _ h := h.cons _
  held m d h := by
    obtain h | ⟨script, rest, hmem, hd⟩ := h
    · exact .inl (h.cons _)
    · exact .inr ⟨script, rest, .tail _ hmem, hd⟩

theorem held_send (script : Str) (rest : List Str) :
    Held sha1 (t.send n (ascii "EVAL".toList :: script :: rest)) n (sha1 script) :=
  .inr ⟨script, rest, .head _, rfl⟩

theorem sound_send (h : Sound sha1 t.log) (hsha : ∀ digest rest,
    cmds = ascii "EVALSHA".toList :: digest :: rest → Ran sha1 t.log n digest) :
    Sound sha1 (t.send n cmds).log := by
  refine h.cons fun m digest rest he => ?_
  obtain ⟨rfl, hcmds⟩ := Entry.sent.inj he
  exact hsha digest rest hcmds

theorem run_spec (h : t.run n cmds = some t') :
    Grows sha1 t t' ∧ (Sound sha1 t.log → Sound sha1 t'.log) := by
  unfold Traffic.run at h
  split at h
  · cases h
    refine ⟨⟨fun m d hran => hran.cons _, fun m d hheld => ?_⟩, fun hs => hs.cons nofun⟩
    obtain hran | ⟨script, rest, hmem, hd⟩ := hheld
    · exact .inl (hran.cons _)
    · by_cases heq : (m, ascii "EVAL".toList :: script :: rest) = (n, cmds)
      · cases heq
        exact .inl ⟨script, rest, .head _, hd⟩
      · exact .inr ⟨script, rest, (List.mem_erase_of_ne heq).2 hmem, hd⟩
  · cases h

theorem lose_spec (h : t.lose n cmds = some t') (hev : cmds.head? ≠ some (ascii "EVAL".toList)) :
    Grows sha1 t t' ∧ t'.log = t.log := by
  unfold Traffic.lose at h
  split at h
  · cases h
    refine ⟨⟨fun _ _ hran => hran, fun m d hheld => ?_⟩, rfl⟩
    obtain hran | ⟨script, rest, hmem, hd⟩ := hheld
    · exact .inl hran
    · refine .inr ⟨script, rest, (List.mem_erase_of_ne fun heq => hev ?_).2 hmem, hd⟩
      rw [← (Prod.mk.inj heq).2, List.head?_cons]
  · cases h

theorem eval_ne_evalsha {script digest : Str} {l l' : List Str} :
    ascii "EVAL".toList :: script :: l ≠ ascii "EVALSHA".toList :: digest :: l' := by
  intro h
  exact absurd (List.cons.inj h).1 (by decide)

theorem cmds_true (c : EvalLua) : ∃ rest, c.cmds true = ascii "EVALSHA".toList :: c.ssha1 :: rest :=
  ⟨_, rfl⟩

theorem cmds_false (c : EvalLua) :
    ∃ rest, c.cmds false = ascii "EVAL".toList :: cstr c.script :: rest :=
  ⟨_, rfl⟩

end Traffic

namespace RedisCli

variable {sha1 : Str → Str} {s s' : RedisCli}

/-- Every recorded script was sent to the node of the client, and not lost. -/
structure Inv (sha1 : Str → Str) (s : RedisCli) : Prop where
  sound : Sound sha1 s.traffic.log
  held : ∀ digest ∈ s.evalshas, Held sha1 s.traffic s.node digest

structure Frame (s s' : RedisCli) : Prop where
  evalshas : s'.evalshas = s.evalshas
  traffic : s'.traffic = s.traffic
  node : s'.node = s.node

theorem Inv.frame (hI : Inv sha1 s) (h : Frame s s') : Inv sha1 s' where
  sound := h.traffic ▸ hI.sound
  held := by
    rw [h.evalshas, h.traffic, h.node]
    exact hI.held

theorem frame_connects {ok : Bool} (h : s.connects ok = some s') : Frame s s' := by
  unfold connects at h
  split at h
  · cases h
  · split at h
    all_goals
      cases h
      exact ⟨rfl, rfl, rfl⟩

theorem frame_connect (s : RedisCli) (err : Bool) : Frame s (s.connect s.node err) := by
  unfold connect
  split
  · exact ⟨rfl, rfl, rfl⟩
  · exact ⟨rfl, rfl, rfl⟩

theorem frame_reconnect (s : RedisCli) (err : Bool) : Frame s (s.reconnect err) := by
  unfold reconnect
  split
  · obtain ⟨hevalshas, htraffic, hnode⟩ := frame_connect { s with reconnecting := true } err
    exact ⟨hevalshas, htraffic, hnode⟩
  · exact ⟨rfl, rfl, rfl⟩

theorem frame_disconnect {err : Bool} (h : s.disconnect err = some s') : Frame s s' := by
  unfold disconnect at h
  split at h
  · split at h
    · cases h
      exact ⟨rfl, rfl, rfl⟩
    · cases h
  · cases h
    exact ⟨rfl, rfl, rfl⟩

theorem frame_disconnectHandler {ok err : Bool} (h : s.disconnectHandler ok err = some s') :
    Frame s s' := by
  unfold disconnectHandler at h
  split at h
  · cases h
  · split at h
    · cases h
      exact frame_reconnect s err
    · split at h
      all_goals
        cases h
        exact ⟨rfl, rfl, rfl⟩

theorem Inv.connect (hI : Inv sha1 s) {n : Node} {err : Bool}
    (hC : s.isConnected = true ∨ s.evalshas = [] ∨ n = s.node) : Inv sha1 (s.connect n err) := by
  obtain hconn | hnone | rfl := hC
  · rw [RedisCli.connect, if_pos hconn]
    exact hI
  · unfold RedisCli.connect
    split
    · exact hI
    · refine ⟨hI.sound, fun digest hmem => ?_⟩
      rw [hnone] at hmem
      cases hmem
  · exact hI.frame (frame_connect s err)

theorem Inv.grow (hI : Inv sha1 s) {t : Traffic} (h : Grows sha1 s.traffic t)
    (hs : Sound sha1 t.log) : Inv sha1 { s with traffic := t } where
  sound := hs
  held digest hmem := h.held s.node digest (hI.held digest hmem)

theorem Inv.evalLua (hI : Inv sha1 s) {c : EvalLua} (hC : Meets sha1 s (.evalLua c))
    (h : s.evalLua c = some s') : Inv sha1 s' := by
  obtain ⟨hdigest, hC⟩ := hC
  unfold RedisCli.evalLua at h
  split at h
  · next hmem =>
    rw [if_pos hmem] at hC
    obtain ⟨rest, hcmds⟩ := cmds_true c
    have hran := (hI.held c.ssha1 hmem).ran hC
    unfold runCmd at h
    split at h
    · split at h
      · cases h
        refine hI.grow (grows_send _ _) (sound_send hI.sound fun digest rest' heq => ?_)
        obtain ⟨rfl, -⟩ := List.cons.inj (List.cons.inj (hcmds.symm.trans heq)).2
        exact hran
      · cases h
    · cases h
      exact hI
  · next hmem =>
    rw [if_neg hmem] at hC
    obtain ⟨rest, hcmds⟩ := cmds_false c
    have hconn : isConnected { s with evalshas := c.ssha1 :: s.evalshas } = true := hC
    rw [runCmd, if_pos hconn] at h
    split at h
    · cases h
      refine ⟨sound_send hI.sound fun digest rest' heq => ?_, fun digest hd => ?_⟩
      · exact absurd (hcmds.symm.trans heq) eval_ne_evalsha
      · obtain rfl | hd := List.mem_cons.1 hd
        · rw [← hdigest]
          dsimp only
          rw [hcmds]
          exact held_send _ _
        · exact (grows_send _ _).held _ _ (hI.held digest hd)
    · cases h

theorem Inv.step {e : Event} (hI : Inv sha1 s) (hC : Meets sha1 s e) (h : s.step e = some s') :
    Inv sha1 s' := by
  cases e with
  | setReconnect recon =>
    cases h
    exact hI.frame ⟨rfl, rfl, rfl⟩
  | connect n err =>
    cases h
    exact hI.connect hC
  | connects ok => exact hI.frame (frame_connects h)
  | reconnect err =>
    cases h
    exact hI.frame (frame_reconnect s err)
  | disconnect err => exact hI.frame (frame_disconnect h)
  | disconnectHandler ok err => exact hI.frame (frame_disconnectHandler h)
  | evalLua c => exact hI.evalLua hC h
  | runs n cmds =>
    obtain ⟨t, ht, rfl⟩ := Option.map_eq_some_iff.1 h
    obtain ⟨hgrow, hsound⟩ : Grows sha1 _ t ∧ (Sound sha1 _ → Sound sha1 t.log) := run_spec ht
    exact hI.grow hgrow (hsound hI.sound)
  | loses n cmds =>
    obtain ⟨t, ht, rfl⟩ := Option.map_eq_some_iff.1 h
    obtain ⟨hgrow, hlog⟩ : Grows sha1 _ t ∧ _ := lose_spec ht hC
    exact hI.grow hgrow (hlog ▸ hI.sound)

theorem Inv.reach (h : system.Reach (Meets sha1) s) : Inv sha1 s := by
  refine h.invariant (fun s hs => ?_) fun s e s' _ hI hC hs => hI.step hC hs
  obtain rfl := hs
  exact ⟨sound_nil, nofun⟩

end RedisCli

namespace LuaCluster

variable {sha1 : Str → Str} {conv : Conv} {s s' : LuaCluster} {t u : Task} {o : Option Task}
  {i : Nat} {n : Node}

/-- A script that is recorded has not been sent to any node yet, and a digest goes to a node that has
run the script. -/
structure Fine (sha1 : Str → Str) (log : List Entry) (t : Task) : Prop where
  free : t.duty = .free → t.lua = true →
    ∃ script rest, t.cmds = ascii "EVAL".toList :: script :: rest
  eval : ∀ n digest, t.duty = .eval n digest →
    (t.lua = true ∧ t.asking = false ∧ t.randomNode = false) ∧
    (∃ script rest, t.cmds = ascii "EVAL".toList :: script :: rest ∧ sha1 script = digest) ∧
    ((t.phase = .refresh ∧ t.ttl = 32) ∨ ∃ m, t.phase = .fromSlot m)
  evalsha : ∀ n, t.duty = .evalsha n →
    (∃ digest rest, t.cmds = ascii "EVALSHA".toList :: digest :: rest ∧ Ran sha1 log n digest) ∧
    ∀ m, t.phase = .asking m → m = n

/-- Every recorded script was sent to its node, or is about to be. -/
structure Inv (sha1 : Str → Str) (s : LuaCluster) : Prop where
  sound : Sound sha1 s.traffic.log
  recorded : ∀ n, ∀ digest ∈ s.evalshas n,
    Held sha1 s.traffic n digest ∨ ∃ t ∈ s.tasks, t.duty = .eval n digest
  fine : ∀ t ∈ s.tasks, Fine sha1 s.traffic.log t

theorem Fine.grow {tr tr' : Traffic} (h : Fine sha1 tr.log t) (hgrow : Grows sha1 tr tr') :
    Fine sha1 tr'.log t where
  free := h.free
  eval := h.eval
  evalsha n hd := by
    obtain ⟨⟨digest, rest, hcmds, hran⟩, hask⟩ := h.evalsha n hd
    exact ⟨⟨digest, rest, hcmds, hgrow.ran _ _ hran⟩, hask⟩

theorem Inv.grow (hI : Inv sha1 s) {tr : Traffic} (h : Grows sha1 s.traffic tr)
    (hs : Sound sha1 tr.log) : Inv sha1 { s with traffic := tr } where
  sound := hs
  recorded n digest hmem := (hI.recorded n digest hmem).imp_left (h.held n digest)
  fine t ht := (hI.fine t ht).grow h

theorem Inv.withCli (hI : Inv sha1 s) (cli : RedisClusterCli) : Inv sha1 { s with cli := cli } :=
  ⟨hI.sound, hI.recorded, hI.fine⟩

theorem mem_put {v : Task} (ht : s.tasks[i]? = some t) (hv : v ∈ s.tasks) (o : Option Task) :
    v = t ∨ v ∈ (s.put i o).tasks := by
  obtain ⟨j, hj, rfl⟩ := List.getElem_of_mem hv
  by_cases hij : j = i
  · subst hij
    exact .inl (List.getElem?_eq_some_iff.1 ht).2
  · right
    cases o with
    | none => exact List.mem_eraseIdx_iff_getElem.2 ⟨j, hj, hij, rfl⟩
    | some u =>
      have hset : (s.tasks.set i u)[j]? = some s.tasks[j] := by
        rw [List.getElem?_set_ne (Ne.symm hij), List.getElem?_eq_getElem hj]
      exact List.mem_of_getElem? hset

theorem mem_put_new (ht : s.tasks[i]? = some t) : u ∈ (s.put i (some u)).tasks :=
  List.mem_set (List.getElem?_eq_some_iff.1 ht).1 u

theorem of_mem_put (h : u ∈ (s.put i o).tasks) : u ∈ s.tasks ∨ o = some u := by
  cases o with
  | none => exact .inl (List.mem_of_mem_eraseIdx h)
  | some v => exact (List.mem_or_eq_of_mem_set h).imp_right fun heq => congrArg some heq.symm

theorem put_evalshas (s : LuaCluster) (i : Nat) (o : Option Task) :
    (s.put i o).evalshas = s.evalshas := by
  cases o <;> rfl

theorem put_traffic (s : LuaCluster) (i : Nat) (o : Option Task) :
    (s.put i o).traffic = s.traffic := by
  cases o <;> rfl

theorem Inv.put (hI : Inv sha1 s) (ht : s.tasks[i]? = some t)
    (hfine : ∀ u, o = some u → Fine sha1 s.traffic.log u)
    (hduty : ∀ n digest, t.duty = .eval n digest →
      Held sha1 s.traffic n digest ∨ ∃ u, o = some u ∧ u.duty = .eval n digest) :
    Inv sha1 (s.put i o) where
  sound := (put_traffic s i o).symm ▸ hI.sound
  recorded n digest hmem := by
    rw [put_evalshas] at hmem
    rw [put_traffic]
    obtain hheld | ⟨v, hv, hd⟩ := hI.recorded n digest hmem
    · exact .inl hheld
    · obtain rfl | hv := mem_put ht hv o
      · obtain hheld | ⟨u, rfl, hu⟩ := hduty n digest hd
        · exact .inl hheld
        · exact .inr ⟨u, mem_put_new ht, hu⟩
      · exact .inr ⟨v, hv, hd⟩
  fine v hv := by
    rw [put_traffic]
    exact (of_mem_put hv).elim (hI.fine v) (hfine v)

theorem Fine.top {log : List Entry} {cli : RedisClusterCli} (h : Fine sha1 log t)
    (htop : t.top cli = some (some u)) : Fine sha1 log u ∧ u.duty = t.duty := by
  have key : ∃ ttl phase, u = { t with ttl := ttl, phase := phase } ∧
      (∀ m, phase ≠ .asking m) ∧ (t.randomNode = false → ∃ m, phase = .fromSlot m) := by
    unfold Task.top at htop
    split at htop
    · cases htop
    · split at htop
      · next hrand =>
        cases htop
        exact ⟨_, _, rfl, nofun, fun hr => absurd (hr.symm.trans hrand) nofun⟩
      · obtain ⟨m, -, hu⟩ := Option.map_eq_some_iff.1 htop
        cases hu
        exact ⟨_, _, rfl, nofun, fun _ => ⟨m, rfl⟩⟩
  obtain ⟨ttl, phase, rfl, hask, hslot⟩ := key
  refine ⟨⟨h.free, fun n digest hd => ?_, fun n hd => ?_⟩, rfl⟩
  · obtain ⟨hfirst, hcmds, -⟩ := h.eval n digest hd
    exact ⟨hfirst, hcmds, .inr (hslot hfirst.2.2)⟩
  · exact ⟨(h.evalsha n hd).1, fun m hm => absurd hm (hask m)⟩

theorem top_ttl {cli : RedisClusterCli} (htop : t.top cli = some none) : t.ttl = 0 := by
  unfold Task.top at htop
  split at htop
  · assumption
  · split at htop
    · cases htop
    · obtain ⟨m, -, hu⟩ := Option.map_eq_some_iff.1 htop
      cases hu

theorem Inv.top (hI : Inv sha1 s) (ht : s.tasks[i]? = some t) {cli : RedisClusterCli}
    (htop : t.top cli = some o) (hduty : ∀ n digest, t.duty = .eval n digest → t.ttl ≠ 0) :
    Inv sha1 (s.put i o) := by
  have hfine := hI.fine t (List.mem_of_getElem? ht)
  refine hI.put ht (fun u hu => ?_) fun n digest hd => ?_
  · subst hu
    exact (hfine.top htop).1
  · cases o with
    | none => exact absurd (top_ttl htop) (hduty n digest hd)
    | some u => exact .inr ⟨u, rfl, (hfine.top htop).2.trans hd⟩

theorem Inv.start (hI : Inv sha1 s) (hfine : Fine sha1 s.traffic.log t) (httl : t.ttl = 32)
    {evalshas : Node → List Str} (hrec : ∀ n, ∀ digest ∈ evalshas n,
      digest ∈ s.evalshas n ∨ t.duty = .eval n digest)
    (h : LuaCluster.start { s with evalshas := evalshas } t = some s') : Inv sha1 s' := by
  have key (u : Task) (hu : Fine sha1 s.traffic.log u) (hd : u.duty = t.duty) :
      Inv sha1 { s with evalshas := evalshas, tasks := s.tasks ++ [u] } := by
    refine ⟨hI.sound, fun n digest hmem => ?_, fun v hv => ?_⟩
    · obtain hmem | hduty := hrec n digest hmem
      · obtain hheld | ⟨v, hv, hduty⟩ := hI.recorded n digest hmem
        · exact .inl hheld
        · exact .inr ⟨v, List.mem_append_left _ hv, hduty⟩
      · exact .inr ⟨u, List.mem_append_right _ (.head _), hd.trans hduty⟩
    · obtain hv | hv := List.mem_append.1 hv
      · exact hI.fine v hv
      · obtain rfl := List.mem_singleton.1 hv
        exact hu
  unfold LuaCluster.start at h
  split at h
  · cases h
    exact key t hfine rfl
  · obtain ⟨o, ho, rfl⟩ := Option.map_eq_some_iff.1 h
    cases o with
    | none =>
      rw [top_ttl ho] at httl
      cases httl
    | some u => exact key u (hfine.top ho).1 (hfine.top ho).2

theorem Inv.evalLua {c : EvalLua} {mem : Mem} (hI : Inv sha1 s)
    (hC : Meets sha1 s (.evalLua c mem)) (h : s.evalLua c mem = some s') : Inv sha1 s' := by
  obtain ⟨hdigest, hC⟩ := hC
  obtain ⟨key, hkey, h⟩ := Option.bind_eq_some_iff.1 h
  obtain ⟨rest, hscript⟩ := cmds_false c
  dsimp only at h
  split at h
  · have hfine : Fine sha1 s.traffic.log { cmds := c.cmds false, lua := true, duty := .free
                                           slot := mem.slot, port := mem.port } :=
      ⟨fun _ _ => ⟨_, rest, hscript⟩, nofun, nofun⟩
    exact hI.start hfine rfl (fun _ _ hmem => .inl hmem) h
  · next n hslot =>
    split at h
    · next hmem =>
      obtain ⟨hway, htask⟩ := hC key hkey n hslot hmem
      obtain ⟨rest', hcmds⟩ := cmds_true c
      have hran : Ran sha1 s.traffic.log n c.ssha1 := by
        obtain hheld | ⟨t, ht, hd⟩ := hI.recorded n c.ssha1 hmem
        · exact hheld.ran hway
        · exact absurd hd (htask t ht)
      have hfine : Fine sha1 s.traffic.log { cmds := c.cmds true, lua := true, duty := .evalsha n
                                             slot := mem.slot, port := mem.port } := by
        refine ⟨nofun, nofun, fun m hm => ?_⟩
        cases hm
        exact ⟨⟨_, rest', hcmds, hran⟩, nofun⟩
      exact hI.start hfine rfl (fun _ _ hm => .inl hm) h
    · have hfine : Fine sha1 s.traffic.log { cmds := c.cmds false, lua := true
                                             duty := .eval n c.ssha1
                                             slot := mem.slot, port := mem.port } := by
        refine ⟨nofun, fun m digest hm => ?_, nofun⟩
        cases hm
        exact ⟨⟨rfl, rfl, rfl⟩, ⟨_, rest, hscript, hdigest⟩, .inl ⟨rfl, rfl⟩⟩
      refine hI.start hfine rfl (fun m digest hm => ?_) h
      by_cases hmn : m = n
      · subst hmn
        rw [Function.update_self] at hm
        obtain rfl | hm := List.mem_cons.1 hm
        · exact .inr rfl
        · exact .inl hm
      · rw [Function.update_of_ne hmn] at hm
        exact .inl hm

theorem Fine.send {log : List Entry} {up : Bool} {tr : Traffic} {k : Nat} (h : Fine sha1 log t)
    (hgoes : Goes (some n) up k t.duty) : Fine sha1 log (t.send n up tr).1 := by
  have hsend : (t.send n up tr).1 = { t with
      phase := .sent n
      duty := if up then t.discharge n else t.duty } := by
    cases up <;> rfl
  rw [hsend]
  cases hd : t.duty with
  | free =>
    have hnew : (if up then t.discharge n else .free) = .free := by
      simp [Task.discharge, hd]
    exact ⟨fun _ => h.free hd, fun m digest he => absurd (hnew.symm.trans he) nofun,
      fun m he => absurd (hnew.symm.trans he) nofun⟩
  | eval m digest =>
    rw [hd] at hgoes
    obtain ⟨hnone, -⟩ | ⟨heq, rfl⟩ := hgoes
    · cases hnone
    cases heq
    have hnew : (if true = true then t.discharge n else .eval n digest) = .free := by
      simp [Task.discharge, hd]
    obtain ⟨-, ⟨script, rest, hcmds, -⟩, -⟩ := h.eval n digest hd
    exact ⟨fun _ _ => ⟨script, rest, hcmds⟩, fun m d he => absurd (hnew.symm.trans he) nofun,
      fun m he => absurd (hnew.symm.trans he) nofun⟩
  | evalsha m =>
    have hnew : (if up then t.discharge n else .evalsha m) = .evalsha m := by
      simp [Task.discharge, hd]
    refine ⟨fun he => absurd (hnew.symm.trans he) nofun,
      fun m d he => absurd (hnew.symm.trans he) nofun, fun k he => ?_⟩
    cases hnew.symm.trans he
    exact ⟨(h.evalsha m hd).1, nofun⟩

theorem Fine.traffic {up : Bool} {tr : Traffic} {k : Nat} (h : Fine sha1 tr.log t)
    (hsound : Sound sha1 tr.log) (hgoes : Goes (some n) up k t.duty) :
    Grows sha1 tr (t.send n up tr).2 ∧ Sound sha1 (t.send n up tr).2.log ∧
      ∀ m digest, t.duty = .eval m digest → Held sha1 (t.send n up tr).2 m digest := by
  have hnode {m : Node} {digest : Str} (hd : t.duty = .eval m digest) : n = m ∧ up = true := by
    rw [hd] at hgoes
    obtain ⟨hnone, -⟩ | ⟨heq, hup⟩ := hgoes
    · cases hnone
    · exact ⟨Option.some.inj heq, hup⟩
  have hlua {m : Node} {digest : Str} (hd : t.duty = .eval m digest) : t.lua = true :=
    (h.eval m digest hd).1.1
  by_cases hsent : up = true ∧ t.lua = true
  · have htr : (t.send n up tr).2 = tr.send n t.cmds := by
      rw [Task.send, if_pos hsent.1]
      exact if_pos hsent.2
    rw [htr]
    refine ⟨grows_send n t.cmds, sound_send hsound fun digest rest hcmds => ?_, fun m d hd => ?_⟩
    · cases hd : t.duty with
      | free =>
        obtain ⟨script, rest', hev⟩ := h.free hd hsent.2
        exact absurd (hev.symm.trans hcmds) eval_ne_evalsha
      | eval m d =>
        obtain ⟨-, ⟨script, rest', hev, -⟩, -⟩ := h.eval m d hd
        exact absurd (hev.symm.trans hcmds) eval_ne_evalsha
      | evalsha m =>
        obtain ⟨⟨d, rest', hsha, hran⟩, -⟩ := h.evalsha m hd
        obtain ⟨rfl, -⟩ := List.cons.inj (List.cons.inj (hsha.symm.trans hcmds)).2
        rw [hd] at hgoes
        obtain hnone | heq := hgoes
        · cases hnone
        · obtain rfl := Option.some.inj heq
          exact hran
    · obtain ⟨rfl, -⟩ := hnode hd
      obtain ⟨-, ⟨script, rest, hcmds, rfl⟩, -⟩ := h.eval n d hd
      rw [hcmds]
      exact held_send script rest
  · have htr : (t.send n up tr).2 = tr := by
      unfold Task.send
      split
      · next hup => exact if_neg fun hl => hsent ⟨hup, hl⟩
      · rfl
    rw [htr]
    exact ⟨.refl tr, hsound, fun m d hd => absurd ⟨(hnode hd).2, hlua hd⟩ hsent⟩

theorem Inv.send {up : Bool} {k : Nat} (hI : Inv sha1 s) (ht : s.tasks[i]? = some t)
    (hu : Fine sha1 s.traffic.log u) (hduty : u.duty = t.duty)
    (hgoes : Goes (some n) up k t.duty) :
    Inv sha1 ({ s with traffic := (u.send n up s.traffic).2 }.put i
      (some (u.send n up s.traffic).1)) := by
  rw [← hduty] at hgoes
  obtain ⟨hgrow, hsound, hheld⟩ := hu.traffic hI.sound hgoes
  refine (hI.grow hgrow hsound).put ht (fun v hv => ?_) fun m digest hd => ?_
  · cases hv
    exact (hu.grow hgrow).send hgoes
  · exact .inl (hheld m digest (hduty.trans hd))

theorem Inv.refreshed {ranges : Option (List SlotRange)} (hI : Inv sha1 s)
    (ht : s.tasks[i]? = some t) (hphase : t.phase = .refresh)
    (hC : Meets sha1 s (.refreshed i ranges)) (h : s.refreshed i t ranges = some s') :
    Inv sha1 s' := by
  have hfine := hI.fine t (List.mem_of_getElem? ht)
  unfold LuaCluster.refreshed at h
  split at h
  · cases h
    have hnone : ∀ u, none = some u → Fine sha1 s.traffic.log u := fun _ hu => by cases hu
    exact hI.put ht hnone fun n digest hd => absurd hd (hC rfl t ht n digest)
  · split at h
    · obtain ⟨o, ho, rfl⟩ := Option.map_eq_some_iff.1 h
      refine (hI.withCli _).top ht ho fun n digest hd => ?_
      obtain ⟨-, -, ⟨-, httl⟩ | ⟨m, hm⟩⟩ := hfine.eval n digest hd
      · rw [httl]
        decide
      · cases hphase.symm.trans hm
    · cases h

theorem Inv.connects {up : Bool} {o : Option Node} (hI : Inv sha1 s) (ht : s.tasks[i]? = some t)
    (hC : Meets sha1 s (.connects i o up)) (h : s.connects i t up o = some s') : Inv sha1 s' := by
  have hfine := hI.fine t (List.mem_of_getElem? ht)
  have hgoes : Goes o up t.ttl t.duty := hC t ht
  unfold LuaCluster.connects at h
  split at h
  · obtain ⟨p, hp, rfl⟩ := Option.map_eq_some_iff.1 h
    refine hI.top ht hp fun m digest hd => ?_
    rw [hd] at hgoes
    obtain ⟨-, httl⟩ | ⟨hsome, -⟩ := hgoes
    · exact httl
    · cases hsome
  · next n =>
    have hrand : Fine sha1 s.traffic.log { t with randomNode := false } := by
      refine ⟨hfine.free, fun m digest hd => ?_, hfine.evalsha⟩
      obtain ⟨⟨hlua, hask, -⟩, hrest⟩ := hfine.eval m digest hd
      exact ⟨⟨hlua, hask, rfl⟩, hrest⟩
    split at h
    · dsimp only at h
      split at h
      · next hask =>
        have heval (m : Node) (digest : Str) : t.duty ≠ .eval m digest := by
          intro hd
          obtain ⟨⟨-, hno, -⟩, -⟩ := hfine.eval m digest hd
          exact absurd (hno.symm.trans hask) nofun
        cases h
        refine hI.put ht (fun u hu => ?_) fun m digest hd => absurd hd (heval m digest)
        cases hu
        refine ⟨hfine.free, fun m digest hd => absurd hd (heval m digest), fun m hd => ?_⟩
        refine ⟨(hfine.evalsha m hd).1, fun k hk => ?_⟩
        have hto : Goes (some n) up t.ttl (.evalsha m) := hd ▸ hgoes
        obtain hnone | heq := hto
        · cases hnone
        · obtain rfl := Option.some.inj heq
          exact (Phase.asking.inj hk).symm
      · cases h
        exact hI.send ht hrand rfl hgoes
    · cases h

theorem Inv.asked {up : Bool} (hI : Inv sha1 s) (ht : s.tasks[i]? = some t)
    (hphase : t.phase = .asking n) : Inv sha1 (s.asked i t n up) := by
  have hfine := hI.fine t (List.mem_of_getElem? ht)
  refine hI.send (k := t.ttl) ht hfine rfl ?_
  cases hd : t.duty with
  | free => trivial
  | eval m digest =>
    obtain ⟨-, -, ⟨hm, -⟩ | ⟨k, hm⟩⟩ := hfine.eval m digest hd
    all_goals cases hphase.symm.trans hm
  | evalsha m => exact .inr (congrArg some ((hfine.evalsha m hd).2 n hphase))

theorem Inv.replied {a : Answer} (hI : Inv sha1 s) (ht : s.tasks[i]? = some t)
    (hphase : t.phase = .sent n) (h : s.replied conv i t a = some s') : Inv sha1 s' := by
  have hfine := hI.fine t (List.mem_of_getElem? ht)
  have heval (m : Node) (digest : Str) : t.duty ≠ .eval m digest := by
    intro hd
    obtain ⟨-, -, ⟨hm, -⟩ | ⟨k, hm⟩⟩ := hfine.eval m digest hd
    all_goals cases hphase.symm.trans hm
  unfold LuaCluster.replied at h
  split at h
  · obtain ⟨u, -, rfl⟩ := Option.map_eq_some_iff.1 h
    refine (hI.withCli _).put ht (fun v hv => ?_) fun m digest hd => absurd hd (heval m digest)
    cases hv
    refine ⟨hfine.free, fun m digest hd => absurd hd (heval m digest), fun m hd => ?_⟩
    exact ⟨(hfine.evalsha m hd).1, nofun⟩
  · cases h
    have hnone : ∀ u, none = some u → Fine sha1 s.traffic.log u := fun _ hu => by cases hu
    exact hI.put ht hnone fun m digest hd => absurd hd (heval m digest)

theorem Inv.step {e : Event} (hI : Inv sha1 s) (hC : Meets sha1 s e)
    (h : s.step conv e = some s') : Inv sha1 s' := by
  cases e with
  | evalLua c mem => exact hI.evalLua hC h
  | runCmd cmds mem =>
    have hfine : Fine sha1 s.traffic.log { cmds := cmds, lua := false
                                           slot := mem.slot, port := mem.port } :=
      ⟨nofun, nofun, nofun⟩
    exact hI.start hfine rfl (fun _ _ hm => .inl hm) h
  | refreshed i ranges =>
    obtain ⟨t, ht, h⟩ := Option.bind_eq_some_iff.1 h
    split at h
    · next hphase => exact hI.refreshed ht hphase hC h
    · cases h
  | connects i o up =>
    obtain ⟨t, ht, h⟩ := Option.bind_eq_some_iff.1 h
    split at h
    · exact hI.connects ht hC h
    · cases h
  | asked i up =>
    obtain ⟨t, ht, h⟩ := Option.bind_eq_some_iff.1 h
    split at h
    · next hphase =>
      cases h
      exact hI.asked ht hphase
    · cases h
  | replied i a =>
    obtain ⟨t, ht, h⟩ := Option.bind_eq_some_iff.1 h
    split at h
    · next hphase => exact hI.replied ht hphase h
    · cases h
  | wakes i =>
    obtain ⟨t, ht, h⟩ := Option.bind_eq_some_iff.1 h
    split at h
    · next hphase =>
      obtain ⟨o, ho, rfl⟩ := Option.map_eq_some_iff.1 h
      refine hI.top ht ho fun m digest hd => ?_
      obtain ⟨-, -, ⟨hm, -⟩ | ⟨k, hm⟩⟩ := (hI.fine t (List.mem_of_getElem? ht)).eval m digest hd
      all_goals cases hphase.symm.trans hm
    · cases h
  | runs n cmds =>
    obtain ⟨t, ht, rfl⟩ := Option.map_eq_some_iff.1 h
    obtain ⟨hgrow, hsound⟩ : Grows sha1 _ t ∧ (Sound sha1 _ → Sound sha1 t.log) := run_spec ht
    exact hI.grow hgrow (hsound hI.sound)
  | loses n cmds =>
    obtain ⟨t, ht, rfl⟩ := Option.map_eq_some_iff.1 h
    obtain ⟨hgrow, hlog⟩ : Grows sha1 _ t ∧ _ := lose_spec ht hC
    exact hI.grow hgrow (hlog ▸ hI.sound)

theorem Inv.reach (h : (system conv).Reach (Meets sha1) s) : Inv sha1 s := by
  refine h.invariant (fun s hs => ?_) fun s e s' _ hI hC hs => hI.step hC hs
  obtain ⟨hevalshas, htasks, htraffic⟩ := hs
  refine ⟨?_, fun n digest hmem => ?_, fun t ht => ?_⟩
  · rw [htraffic]
    exact sound_nil
  · rw [hevalshas] at hmem
    cases hmem
  · rw [htasks] at ht
    cases ht

end LuaCluster

/-- In every run whose events go well, a node that gets a digest has run the script before. -/
theorem digests_known (conv : Conv) (sha1 : Str → Str) :
    (∀ s, RedisCli.system.Reach (RedisCli.Meets sha1) s → Sound sha1 s.traffic.log) ∧
    ∀ s, (LuaCluster.system conv).Reach (LuaCluster.Meets sha1) s → Sound sha1 s.traffic.log :=
  ⟨fun _ h => (RedisCli.Inv.reach h).sound, fun _ h => (LuaCluster.Inv.reach h).sound⟩

section Runs

def returnOne : EvalLua where
  script := ascii "return 1".toList
  ssha1 := ascii "e0e1f9fabfc9d4800c877a703b823ac0578ff8db".toList
  keys := [ascii "k".toList]
  args := []

def oneSha1 (script : Str) : Str := if script = returnOne.script then returnOne.ssha1 else []

def twice : List Entry :=
  [.sent someNode (returnOne.cmds true), .ran someNode (returnOne.cmds false),
    .sent someNode (returnOne.cmds false)]

theorem digests_known_twice :
    (∃ s, RedisCli.system.Reach (RedisCli.Meets oneSha1) s ∧ s.traffic.log = twice ∧
      Sound oneSha1 s.traffic.log) ∧
    ∃ s, (LuaCluster.system noConv).Reach (LuaCluster.Meets oneSha1) s ∧ s.traffic.log = twice ∧
      Sound oneSha1 s.traffic.log := by
  have hdigest : oneSha1 (cstr returnOne.script) = returnOne.ssha1 := by decide
  have hway (t : Traffic) (ht : t.wire = []) (n : Node) (digest : Str) :
      ¬ OnItsWay oneSha1 t n digest := by
    rintro ⟨_, _, hmem, -⟩
    rw [ht] at hmem
    cases hmem
  let sent : Traffic := Traffic.send {} someNode (returnOne.cmds false)
  let ran : Traffic := { log := .ran someNode (returnOne.cmds false) :: sent.log }
  constructor
  · let s₁ : RedisCli := { node := someNode, context := true, connecting := 1 }
    let s₂ : RedisCli := { node := someNode, context := true, connected := true }
    let s₃ : RedisCli := { s₂ with evalshas := [returnOne.ssha1], traffic := sent }
    let s₄ : RedisCli := { s₃ with traffic := ran }
    have h₁ : RedisCli.system.Reach (RedisCli.Meets oneSha1) s₁ :=
      .step (e := .connect someNode false) (.init rfl) (.inr (.inl rfl)) rfl
    have h₂ : RedisCli.system.Reach (RedisCli.Meets oneSha1) s₂ :=
      h₁.step (e := .connects true) trivial rfl
    have h₃ : RedisCli.system.Reach (RedisCli.Meets oneSha1) s₃ :=
      h₂.step (e := .evalLua returnOne) ⟨hdigest, rfl⟩ rfl
    have h₄ : RedisCli.system.Reach (RedisCli.Meets oneSha1) s₄ :=
      h₃.step (e := .runs someNode (returnOne.cmds false)) trivial rfl
    have hagain : RedisCli.Meets oneSha1 s₄ (.evalLua returnOne) := by
      refine ⟨hdigest, ?_⟩
      rw [if_pos (List.mem_singleton.2 rfl)]
      exact hway ran rfl _ _
    have h₅ := h₄.step hagain rfl
    exact ⟨_, h₅, rfl, (digests_known noConv oneSha1).1 _ h₅⟩
  · let evalshas := Function.update (fun _ => []) someNode [returnOne.ssha1]
    let t : Task :=
      { cmds := returnOne.cmds false, lua := true, duty := .eval someNode returnOne.ssha1
        ttl := 31, slot := 0, port := 0, phase := .fromSlot someNode }
    let u : Task :=
      { cmds := returnOne.cmds true, lua := true, duty := .evalsha someNode
        ttl := 31, slot := 0, port := 0, phase := .fromSlot someNode }
    let s₁ : LuaCluster := { cli := oneNode, evalshas := evalshas, tasks := [t] }
    let s₂ : LuaCluster := { s₁ with
      tasks := [{ t with duty := .free, phase := .sent someNode }]
      traffic := sent }
    let s₃ : LuaCluster := { s₂ with traffic := ran }
    let s₄ : LuaCluster := { s₃ with tasks := [] }
    let s₅ : LuaCluster := { s₄ with tasks := [u] }
    have h₁ : (LuaCluster.system noConv).Reach (LuaCluster.Meets oneSha1) s₁ := by
      refine .step (s := { cli := oneNode }) (e := .evalLua returnOne ⟨false, 0, 0⟩)
        (.init ⟨rfl, rfl, rfl⟩) ⟨hdigest, fun _ _ _ _ hmem => ?_⟩ rfl
      cases hmem
    have h₂ : (LuaCluster.system noConv).Reach (LuaCluster.Meets oneSha1) s₂ := by
      refine h₁.step (e := .connects 0 (some someNode) true) (fun v hv => ?_) rfl
      cases hv
      exact .inr ⟨rfl, rfl⟩
    have h₃ : (LuaCluster.system noConv).Reach (LuaCluster.Meets oneSha1) s₃ :=
      h₂.step (e := .runs someNode (returnOne.cmds false)) trivial rfl
    have h₄ : (LuaCluster.system noConv).Reach (LuaCluster.Meets oneSha1) s₄ :=
      h₃.step (e := .replied 0 (.reply .nil)) trivial rfl
    have h₅ : (LuaCluster.system noConv).Reach (LuaCluster.Meets oneSha1) s₅ :=
      h₄.step (e := .evalLua returnOne ⟨false, 0, 0⟩)
        ⟨hdigest, fun _ _ _ _ _ => ⟨hway ran rfl _ _, nofun⟩⟩ rfl
    have hgoes : LuaCluster.Meets oneSha1 s₅ (.connects 0 (some someNode) true) := by
      intro v hv
      cases hv
      exact .inr rfl
    have h₆ := h₅.step hgoes rfl
    exact ⟨_, h₆, rfl, (digests_known noConv oneSha1).2 _ h₆⟩

/-- A script that is evaluated while the client is not connected is recorded all the same; so is one
for which the table of the slots cannot be read.  The next time its digest is sent. -/
theorem not_digests_known :
    (¬ ∀ s, RedisCli.system.Reachable s → Sound oneSha1 s.traffic.log) ∧
    ¬ ∀ s, (LuaCluster.system noConv).Reachable s → Sound oneSha1 s.traffic.log := by
  have hno : ¬ Sound oneSha1 [.sent someNode (returnOne.cmds true)] := by
    intro h
    obtain ⟨_, _, hmem, -⟩ := h [] [] someNode _ _ rfl
    cases hmem
  constructor
  · intro h
    let es : List RedisCli.Event := [.evalLua returnOne, .connect someNode false, .connects true,
      .evalLua returnOne]
    obtain ⟨s, hs, hlog⟩ : ∃ s, RedisCli.system.exec {} es = some s ∧
        s.traffic.log = [.sent someNode (returnOne.cmds true)] := ⟨_, rfl, rfl⟩
    have hinit : RedisCli.system.init {} := rfl
    exact hno (hlog ▸ h s (System.reachable_exec es hinit hs))
  · intro h
    let es : List LuaCluster.Event := [.evalLua returnOne ⟨false, 0, 0⟩, .refreshed 0 none,
      .evalLua returnOne ⟨false, 0, 0⟩, .refreshed 0 (some [⟨0, 16383, someNode⟩]),
      .connects 0 (some someNode) true]
    obtain ⟨s, hs, hlog⟩ : ∃ s, (LuaCluster.system noConv).exec
        { cli := { oneNode with dirtyTables := true } } es = some s ∧
          s.traffic.log = [.sent someNode (returnOne.cmds true)] := ⟨_, rfl, rfl⟩
    exact hno (hlog ▸ h s (System.reachable_exec es ⟨rfl, rfl, rfl⟩ hs))

end Runs

end Okws.Redis
