import Okws.Pub

namespace Okws.Pub3

open Zbuf Lib

/-- `metadata_t`. -/
structure Metadata where
  ifn : Option Str
  jfn : Option Str
  rfn : Option Str
  hsh : Option Str
  ctime : Int64

/-- `file_t`; an empty file has no data. -/
structure File where
  metadata : Metadata
  data : Option Zone

namespace Metadata

variable (m : Metadata)

def toDict : Tab :=
  let entry (k : String) (x : Option Str) : Tab :=
    x.toList.map fun s => (text k, some (.const (.str s)))
  entry "input_filename" m.ifn ++ entry "jailed_filename" m.jfn ++
    entry "real_filename" m.rfn ++ entry "hash" m.hsh ++
    [(text "ctime", some (.const (.int m.ctime)))]

def toBinding : Mem Nat := do
  let d ← Mem.alloc (.dict m.toDict none)
  Mem.alloc (.dict [(text "metadata", some (.obj d))] none)

def filename : Str := m.jfn.getD (text "<top-level>")

end Metadata

/-- What comes of `getfile`. -/
inductive Fetched
  | ok (f : File)
  | rpcErr (code : Nat)
  | noent
  | errors (code : Nat) (errs : List Str)
  | other (code : Nat) (err : Str)

/-- `localizer_t`. -/
structure Localizer where
  strict : Bool
  compoundLocalize : Str → List Str
  defaultFnf : Option Str

/-- `abstract_publisher_t`. -/
structure Publisher where
  isRemote : Bool
  localizer : Option Localizer
  getfile : Str → Fetched

/-- `basename_dirname`: the directory, the name of the file, and whether the path is absolute. -/
def basenameDirname (p : Str) : Option Str × Option Str × Bool :=
  let b := (p.reverse.takeWhile (· != 47)).reverse
  let d := ((p.reverse.dropWhile (· != 47)).dropWhile (· == 47)).reverse
  (if d.isEmpty then none else some d, if b.isEmpty then none else some b, p.head? == some 47)

/-- `re_fslash`, which leaves one slash in front. -/
def reFslash (p : Str) : Str := 47 :: p.dropWhile (· == 47)

def applyContainerDir (d f : Str) : Str :=
  if f.head? = some 47 then reFslash f else d ++ 47 :: f

namespace Publisher

variable (P : Publisher)

def listFilesToCheck (cwd : Option Str) (nm : Str) (l : Option Localizer) : List Str :=
  match basenameDirname nm with
  | (_, none, _) => []
  | (_, some _, abs) =>
    let n₁ := if P.isRemote then 47 :: nm else nm
    let ns := if abs then [nm] else n₁ :: (cwd.map (applyContainerDir · nm)).toList
    l.elim [] (fun l => ns.flatMap l.compoundLocalize) ++
      (if l.any (·.strict) then [] else ns) ++ (l.bind (·.defaultFnf)).toList

/-- The loop of `publish_prepare`, with the name under which the file was found. -/
def tryFiles : List Str → Str × Fetched
  | [] => ([], .noent)
  | fn :: fns => match P.getfile fn with
    | .noent => tryFiles fns
    | r => (fn, r)

/-- What `publish_prepare` finds. -/
def find (s : State) (fn : Str) : Str × Fetched :=
  P.tryFiles (P.listFilesToCheck s.cwd fn (if s.opts.noLocale then none else P.localizer))

end Publisher

def outputErrs (typ : ErrType) : List Str → Eval Unit
  | [] => pure ()
  | e :: es => do
    outputErr e typ
    outputErrs typ es

def setCwd (d : Option Str) : Act (Option Str) := do
  let s ← get
  set { s with cwd := d }
  pure s.cwd

section Publish

variable (A : Evals)

/-- What `publish_file` does with the data, in a layer and with a place of its own. -/
def publishData (md : Metadata) (z : Zone) : Eval Status := do
  let line ← Prog.getReg
  let size ← act do
    modify fun s => { s with
      callers := ⟨s.md, s.func, line⟩ :: s.callers
      md := md.filename
      func := none }
    let b ← onHeap md.toBinding
    pushLocals b .locals
  setLineno 0
  let status ← A.zone z
  let back ← act do
    popTo size
    let s ← get
    match s.callers with
    | [] => fun _ => none
    | f :: fs => do
      set { s with
        callers := fs
        md := f.md
        func := f.func
        control := { s.control with exit := false } }
      pure f.line
  setLineno back
  pure status

/-- `eval_t::publish_file`. -/
def publishFileData (file : File) : Eval Status := do
  let line ← Prog.getReg
  let s ← act get
  if okPubMaxStack < s.callers.length + 1 then do
    act (outputErrAt (⟨s.md, s.func, line⟩ :: s.callers) (text "maximum include stack depth (" ++
      decimal okPubMaxStack ++ text ") exceeded when trying to include file " ++
      file.metadata.jfn.getD []) .error)
    pure .ok
  else match file.data with
    | none => pure .ok
    | some z => publishData A file.metadata z

/-- `abstract_publisher_t::publish`. -/
def publishPath (P : Publisher) (fn : Str) : Eval Status := do
  let s ← act get
  match P.find s fn with
  | (rfn, .ok file) => do
    let prev ← act (setCwd (basenameDirname rfn).1)
    let status ← publishFileData A { file with metadata := { file.metadata with ifn := some fn } }
    let _ ← act (setCwd prev)
    Prog.when (status != .ok) (outputErr (text "error in publishing file: " ++ fn) .error)
    pure status
  | (_, .rpcErr code) => do
    outputErr (fn ++ text ": RPC error: " ++ decimal code) .error
    pure (.failed 6)
  | (_, .noent) => do
    outputErr (fn ++ text ": file not found") .error
    pure (.failed 3)
  | (_, .errors code errs) => do
    outputErrs .error errs
    pure (.failed code)
  | (_, .other code err) => do
    outputErr err .error
    pure (.failed code)

end Publish

/-- A host that publishes the files of `P`, which are included to the given depth. -/
def Host.withFiles (H : Host) (P : Publisher) : Nat → Host
  | 0 => { H with publish := fun _ => Prog.stuck }
  | k + 1 => { H with publish := publishPath (block (H.withFiles P k) k) P }

end Okws.Pub3
