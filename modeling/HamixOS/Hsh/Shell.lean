import HamixOS.Hsh.Syntax
import Mathlib.Data.Char
import Mathlib.Data.List.Lex
import Mathlib.Data.List.Sort
import Mathlib.Data.List.Dedup

namespace HamixOS.Hsh

open Lib

/-!
# Running commands (`userland/core/hsh/src/shell.rs`)

`Shell.run` and what it calls, over a state that keeps the descriptors the shell holds next to its
variables.  What the kernel answers to the `n`-th call, the parser and the builtins other than `source` and
`eval` are the `Host`; whatever `run` does beside that is written out.

* `expandWord`, `openRedirs`, `spawnExternal`, `runSimple`, `runPipeline`, `run` — the functions of the
  source; `run` takes a bound for the depth of the calls and the turns of a loop, and returns nothing
  beyond it;
* `Mark` — what happened to descriptors and children, kept in `State.history`;
* `Balanced` — what is asked of the descriptors, the children and the pipelines of a run.

The foreground process group of the terminal and the command history are left out.
-/

structure Io where
  input : Nat
  out : Nat
  err : Nat
  deriving DecidableEq

inductive Flow where
  | normal
  | break
  | continue
  | return
  deriving DecidableEq

structure Shell where
  vars : Text → Option Text
  exported : List Text
  inScope : List Text
  args : List Text
  status : Int
  aliases : Text → Option Text
  functions : Text → Option Node
  interactive : Bool
  exit : Option Int
  errexit : Bool
  xtrace : Bool
  flow : Flow
  lastBackground : Int
  jobs : List (Int × Text)

/-- The flags with which a redirection opens its file. -/
inductive OpenMode where
  /-- `O_RDONLY` -/
  | read
  /-- `O_WRONLY | O_CREAT | O_TRUNC` -/
  | truncate
  /-- `O_WRONLY | O_CREAT | O_APPEND` -/
  | append
  deriving DecidableEq

/-- What `spawn_io_env` is called with. -/
structure Request where
  program : Text
  args : List Text
  env : List Text
  detach : Bool
  foreground : Bool
  input : Option Nat
  out : Option Nat
  err : Option Nat

/-- What lies outside the functions of this file.  Every answer of the kernel may depend on the number of
the call. -/
structure Host where
  /-- The descriptor that the kernel gives out when some are held. -/
  pick : Nat → List Nat → Nat
  fresh : ∀ call held, pick call held ∉ held
  /-- The error of a call to `open`, if it fails. -/
  openWith : Nat → Text → OpenMode → Option Int
  pipe : Nat → Option Int
  spawn : Nat → Request → Int
  waitpid : Nat → Int → Int
  /-- What can be read from a descriptor up to its end, decoded. -/
  readAll : Nat → Nat → Text
  readToString : Nat → Text → Option Text
  getcwd : Nat → Text
  getpid : Nat → Nat
  getuid : Nat → Nat
  geteuid : Nat → Nat
  randomSalt : Nat → Nat
  homeOf : Text → Option Text
  glob : Nat → Text → List Text
  /-- `resolve_program`, and the commands that the system knows by name with their arguments. -/
  resolve : Nat → Shell → Text → Option (Text × List Text)
  /-- A program that the kernel starts itself: it is an ELF file, or it has a `#!` line and is executable. -/
  starts : Nat → Text → Bool
  binaryKind : Nat → Text → Option Text
  errorName : Int → Text
  parse : Text → Except Text Node
  isBuiltin : Text → Bool
  builtin : Nat → List Text → Io → Shell → Int × Shell

inductive Mark where
  | opened (fd : Nat)
  | closed (fd : Nat)
  /-- A child of a pipeline has been started. -/
  | started (pid : Int)
  | waited (pid : Int)
  /-- `open_redirs` fails; these it has opened before. -/
  | refused (opened : List Nat)
  /-- `pipe` fails before the stage of this number; these descriptors and children the pipeline has. -/
  | broken (index : Nat) (left : List Nat) (pids : List Int)
  /-- A pipeline is over: the child of each stage that could be started, what `waitpid` gave for them, and
  the status. -/
  | finished (stages : List (Option Int)) (codes : List Int) (status : Int)
  | wrote (fd : Nat) (text : Text)
  deriving DecidableEq

structure State where
  shell : Shell
  /-- The descriptors that the shell holds. -/
  held : List Nat
  /-- The number of calls so far. -/
  calls : Nat
  /-- What has happened, the latest first. -/
  history : List Mark

abbrev M := StateT State Option

namespace State

def called (s : State) : State := { s with calls := s.calls + 1 }

def mark (s : State) (m : Mark) : State := { s with history := m :: s.history }

def opened (s : State) (fd : Nat) : State := { s with held := fd :: s.held, history := .opened fd :: s.history }

def closed (s : State) (fd : Nat) : State := { s with held := s.held.erase fd, history := .closed fd :: s.history }

end State

/-- A status as an `i32`. -/
def asStatus (code : Int) : Int := code.bmod (2 ^ 32)

/-- The exit status of a child for what `waitpid` gave. -/
def exitStatus (code : Int) : Int := if code < 0 then 1 else asStatus code

def text (s : String) : Text := s.toList

def join (sep : Text) (l : List Text) : Text := (l.intersperse sep).flatten

/-! ### Calls of the system -/

section

variable (h : Host)

/-- The answer to a call that opens and starts nothing. -/
def ask {α : Type} (answer : Nat → α) : M α := fun s => some (answer s.calls, s.called)

def getShell : M Shell := fun s => some (s.shell, s)

def setShell (f : Shell → Shell) : M Unit := fun s => some ((), { s with shell := f s.shell })

def write (fd : Nat) (t : Text) : M Unit := fun s => some ((), s.mark (.wrote fd t))

def errln (io : Io) (t : Text) : M Unit := write io.err (t ++ ['\n'])

def note (m : Mark) : M Unit := fun s => some ((), s.mark m)

/-- `if c { x }` -/
def onlyIf (c : Prop) [Decidable c] (x : M Unit) : M Unit := if c then x else pure ()

def openWith (path : Text) (mode : OpenMode) : M (Except Int Nat) := fun s =>
  match h.openWith s.calls path mode with
  | some e => some (.error e, s.called)
  | none => some (.ok (h.pick s.calls s.held), s.called.opened (h.pick s.calls s.held))

def pipe : M (Except Int (Nat × Nat)) := fun s =>
  match h.pipe s.calls with
  | some e => some (.error e, s.called)
  | none =>
    let r := h.pick s.calls s.held
    let w := h.pick s.calls (r :: s.held)
    some (.ok (r, w), (s.called.opened r).opened w)

def close (fd : Nat) : M Unit := fun s => some ((), s.called.closed fd)

/-- `for fd in opened { sys::close(fd) }` -/
def closeAll : List Nat → M Unit
  | [] => pure ()
  | fd :: fds => do
    close fd
    closeAll fds

/-! ### Variables -/

/-- The names that are not looked up in the variables. -/
def special (sh : Shell) (call : Nat) (name : Text) : Option Text :=
  if name = ['?'] then some (text (toString sh.status))
  else if name = ['#'] then some (text (toString (sh.args.length - 1)))
  else if name = ['$'] then some (text (toString (h.getpid call)))
  else if name = ['!'] then some (text (toString sh.lastBackground))
  else if name = ['@'] ∨ name = ['*'] then some (join [' '] sh.args.tail)
  else if name = text "PWD" then some (h.getcwd call)
  else if name = text "RANDOM" then some (text (toString (h.randomSalt call % 32768)))
  else if name = text "UID" then some (text (toString (h.getuid call)))
  else if name = text "EUID" then some (text (toString (h.geteuid call)))
  else if name ≠ [] ∧ name.all Text.isDigit then some ((sh.args[Text.number name]?).getD [])
  else none

/-- The value of a name without a default. -/
def plainVar (sh : Shell) (call : Nat) : Text → Text
  | [] => (sh.vars []).getD []
  | c :: base =>
    match special h sh call (c :: base) with
    | some value => value
    | none => if c = '#' then text (toString (plainVar sh call base).length) else (sh.vars (c :: base)).getD []

/-- `split_once(":-")` -/
def splitDefault : Text → Option (Text × Text)
  | [] => none
  | [_] => none
  | c :: d :: t => if c = ':' ∧ d = '-' then some ([], t) else (splitDefault (d :: t)).map fun r => (c :: r.1, r.2)

def var (sh : Shell) (call : Nat) (name : Text) : Text :=
  match splitDefault name with
  | some (base, default) => if plainVar h sh call base = [] then default else plainVar h sh call base
  | none => plainVar h sh call name

def Shell.setVar (sh : Shell) (name value : Text) : Shell :=
  if name = text "PWD" then sh else { sh with vars := Function.update sh.vars name (some value) }

def environment (sh : Shell) (call : Nat) : List Text :=
  (((sh.exported ++ sh.inScope).insertionSort (· ≤ ·)).dedup.filter fun name =>
    name = text "PWD" ∨ (sh.vars name).isSome).map fun name => name ++ ['='] ++ var h sh call name

def spawnWithEnv (program : Text) (args : List Text) (detach foreground : Bool) (io : Io) : M Int := do
  let sh ← getShell
  ask fun call => h.spawn call
    ⟨program, args, environment h sh call, detach, foreground, some io.input, some io.out, some io.err⟩

/-! ### Words -/

def hsh : Text := text "/usr/bin/hsh"

/-- The output of a command, without the line ends behind it. -/
def capture (src : Text) : M Text := do
  match ← pipe h with
  | .error _ => pure []
  | .ok (readFd, writeFd) => do
    let sh ← getShell
    let pid ← ask fun call => h.spawn call
      ⟨hsh, [text "-c", src], environment h sh call, false, false, none, some writeFd, none⟩
    close writeFd
    let output ← ask fun call => h.readAll call readFd
    close readFd
    onlyIf (0 < pid) do
      let code ← ask fun call => h.waitpid call pid
      setShell fun sh => { sh with status := asStatus code }
    pure (output.reverse.dropWhile (· = '\n')).reverse

/-- The fields of a word as far as it is expanded. -/
structure Fields where
  done : List Text
  last : Text
  hasGlob : Bool
  quotedAny : Bool

namespace Fields

def push (f : Fields) (t : Text) : Fields := { f with last := f.last ++ t }

def next (f : Fields) (t : Text) : Fields := { f with done := f.done ++ [f.last], last := t }

/-- The first piece goes on with the last field, each other piece is a field. -/
def pieces (f : Fields) : List Text → Fields
  | [] => f
  | p :: ps => ps.foldl next (f.push p)

def all (f : Fields) : List Text := f.done ++ [f.last]

end Fields

def blankPieces (value : Text) : List Text :=
  (value.splitOnP fun c => c = ' ' ∨ c = '\t' ∨ c = '\n').filter (· ≠ [])

/-- The value of a variable or of a command, put behind what there is. -/
def Fields.value (f : Fields) (value : Text) (quoted : Bool) : Fields :=
  if quoted then { f.push value with quotedAny := true } else f.pieces (blankPieces value)

/-- One part of a word; nothing when the word has no field at all. -/
def expandPart (f : Fields) : Part → M (Option Fields)
  | .lit t quoted =>
    pure (some { f.push t with
      quotedAny := f.quotedAny || quoted
      hasGlob := f.hasGlob || (!quoted && (t.contains '*' || t.contains '?')) })
  | .tilde user => do
    let sh ← getShell
    let home ← ask fun call =>
      if user = [] then var h sh call (text "HOME") else (h.homeOf user).getD ('~' :: user)
    pure (some (f.push home))
  | .sub src quoted => do
    let value ← capture h src
    pure (some (f.value value quoted))
  | .var name quoted => do
    let sh ← getShell
    if name = ['@'] ∧ quoted then
      match sh.args.tail with
      | [] => pure (if f.done = [] ∧ f.last = [] then none else some f)
      | items => pure (some { f.pieces items with quotedAny := true })
    else
      let value ← ask fun call => var h sh call name
      pure (some (f.value value quoted))

def expandParts : List Part → Fields → M (Option Fields)
  | [], f => pure (some f)
  | part :: parts, f => do
    match ← expandPart h f part with
    | none => pure none
    | some f => expandParts parts f

def expandWord (word : Word) : M (List Text) := do
  match ← expandParts h word.parts ⟨[], [], false, false⟩ with
  | none => pure []
  | some f =>
    if f.done = [] ∧ f.last = [] ∧ f.quotedAny = false then pure []
    else if f.hasGlob ∧ f.done = [] then do
      let found ← ask fun call => h.glob call f.last
      pure (if found = [] then f.all else found)
    else pure f.all

def expandWords : List Word → M (List Text)
  | [] => pure []
  | word :: words => do
    let fields ← expandWord h word
    let rest ← expandWords words
    pure (fields ++ rest)

def expandOne (word : Word) : M Text := do
  let fields ← expandWord h word
  pure (join [' '] fields)

/-! ### Redirections -/

def RedirKind.mode : RedirKind → Option OpenMode
  | .input => some .read
  | .out => some .truncate
  | .allOut => some .truncate
  | .append => some .append
  | .errOut => some .truncate
  | .errAppend => some .append
  | .errToOut => none

/-- Where a redirection puts the descriptor it has opened. -/
def RedirKind.put (kind : RedirKind) (fd : Nat) (io : Io) : Io :=
  match kind with
  | .input => { io with input := fd }
  | .out => { io with out := fd }
  | .append => { io with out := fd }
  | .allOut => { io with out := fd, err := fd }
  | .errOut => { io with err := fd }
  | .errAppend => { io with err := fd }
  | .errToOut => { io with err := io.out }

/-- The path that a redirection names. -/
def redirPath : Option Word → M Text
  | some word => expandOne h word
  | none => pure []

/-- The redirections from here on, with the descriptors as they are and the opened ones. -/
def openRedirs : List Redir → Io → List Nat → M (Except Text (Io × List Nat))
  | [], result, opened => pure (.ok (result, opened))
  | redir :: redirs, result, opened => do
    let path ← redirPath h redir.target
    match redir.kind.mode with
    | none => openRedirs redirs { result with err := result.out } opened
    | some mode => do
      match ← openWith h path mode with
      | .error e => do
        -- `?` leaves `opened` behind
        note (.refused opened)
        pure (.error (path ++ text ": " ++ h.errorName e))
      | .ok fd => openRedirs redirs (redir.kind.put fd result) (opened ++ [fd])

/-! ### Programs -/

def spawnExternal (argv : List Text) (io : Io) (foreground : Bool) : M (Except Text Int) := do
  let name := argv.headD []
  let sh ← getShell
  match ← ask fun call => h.resolve call sh name with
  | none => pure (.error (name ++ text ": command not found"))
  | some (path, first) => do
    let args := first ++ argv.tail
    let itself ← ask fun call => h.starts call path
    let program := if itself then path else hsh
    let args := if itself then args else path :: args
    let pid ← spawnWithEnv h program args false (foreground && sh.interactive) io
    if pid < 0 then
      if pid = -8 then do
        let kind ← ask fun call => h.binaryKind call program
        pure (.error (name ++ text ": cannot execute binary (" ++ kind.getD (text "unknown format") ++ [')']))
      else pure (.error (name ++ text ": " ++ h.errorName pid))
    else pure (.ok pid)

def waitForeground (pid : Int) : M Int := do
  let code ← ask fun call => exitStatus (h.waitpid call pid)
  let sh ← getShell
  onlyIf (code = 130 ∧ sh.interactive) (write 1 ['\n'])
  pure code

def runBackground (node : Node) (io : Io) : M Int := do
  let src := if node.source = [] then text "true" else node.source
  let pid ← spawnWithEnv h hsh [text "-c", src] true false io
  if pid < 0 then do
    errln io (text "hsh: cannot start background job: " ++ h.errorName pid)
    pure 1
  else do
    setShell fun sh => { sh with lastBackground := pid, jobs := sh.jobs ++ [(pid, src)] }
    let sh ← getShell
    onlyIf sh.interactive (write io.out (text s!"[{sh.jobs.length}] {pid}\n"))
    pure 0

/-! ### Pipelines -/

/-- The program of a stage that needs no shell of its own, with its redirections. -/
def stageProgram : Node → M (Option (List Text × List Redir))
  | .simple [] words redirs _ => do
    let argv ← expandWords h words
    let sh ← getShell
    let name := argv.headD []
    pure (if argv ≠ [] ∧ h.isBuiltin name = false ∧ (sh.functions name).isNone ∧ (sh.aliases name).isNone then
      some (argv, redirs) else none)
  | _ => pure none

def startStage (stage : Node) (io : Io) : M (Except Text Int) := do
  match ← stageProgram h stage with
  | some (argv, redirs) => do
    match ← openRedirs h redirs io [] with
    | .error e => pure (.error e)
    | .ok (inner, opened) => do
      let pid ← spawnExternal h argv inner false
      closeAll opened
      pure pid
  | none => do
    let pid ← spawnWithEnv h hsh [text "-c", stage.source] false false io
    pure (if pid < 0 then .error (text "hsh: " ++ h.errorName pid) else .ok pid)

/-- The pipe behind a stage: what the next stage reads from, and what this one writes to. -/
def stagePipe (io : Io) (last : Bool) : M (Except Int (Option Nat × Nat)) :=
  if last then pure (.ok (none, io.out))
  else do
    match ← pipe h with
    | .error e => pure (.error e)
    | .ok (r, w) => pure (.ok (some r, w))

/-- A stage that has been started is a child of the pipeline. -/
def addStage (io : Io) : Except Text Int → M Unit
  | .ok pid => note (.started pid)
  | .error e => errln io e

/-- The stages from here on; `results` are the children of those before, in the source the list `pids`
without the stages that could not be started.  Nothing is returned when a pipe cannot be made. -/
def runStages (io : Io) : List Node → Nat → Nat → List (Option Int) → M (Option (List (Option Int)))
  | [], _, _, results => pure (some results)
  | stage :: stages, index, input, results => do
    match ← stagePipe h io stages.isEmpty with
    | .error e => do
      errln io (text "hsh: pipe: " ++ h.errorName e)
      note (.broken index (if input ≠ io.input then [input] else []) results.reduceOption)
      pure none
    | .ok (nextRead, out) => do
      let pid ← startStage h stage { io with input := input, out := out }
      addStage io pid
      onlyIf (input ≠ io.input) (close input)
      onlyIf (stages.isEmpty = false) (close out)
      runStages io stages (index + 1) (nextRead.getD input) (results ++ [pid.toOption])

def waitStages : List Int → M (List Int)
  | [] => pure []
  | pid :: pids => do
    let code ← ask fun call => h.waitpid call pid
    note (.waited pid)
    let codes ← waitStages pids
    pure (code :: codes)

/-- The status for what `waitpid` gave. -/
def pipelineStatus (codes : List Int) : Int :=
  match codes.getLast? with
  | none => 0
  | some code => exitStatus code

/-! ### Nodes -/

/-- `run` from here on: what the functions below call it with is one call deeper. -/
abbrev Run := Node → Io → M Int

variable (rec : Run)

def runGuarded (node : Node) (io : Io) : M Int := do
  let sh ← getShell
  setShell fun sh => { sh with errexit := false }
  let status ← rec node io
  setShell fun now => { now with errexit := sh.errexit }
  pure status

def runSource (src : Text) (io : Io) : M Int := do
  match h.parse src with
  | .ok node => rec node io
  | .error e => do
    errln io (text "hsh: " ++ e)
    setShell fun sh => { sh with status := 2 }
    pure 2

def runScript (path : Text) (args : List Text) (io : Io) : M Int := do
  match ← ask fun call => h.readToString call path with
  | none => do
    errln io (text "hsh: " ++ path ++ text ": cannot read the script")
    pure 127
  | some src => do
    let sh ← getShell
    setShell fun sh => { sh with args := path :: args }
    let status ← runSource h rec src io
    setShell fun now => { now with args := sh.args }
    pure status

/-- `builtins::run`: `source` and `eval` come back to `run`. -/
def runBuiltin (argv : List Text) (io : Io) : M Int :=
  let name := argv.headD []
  if name = text "source" ∨ name = text "." then
    match argv.tail with
    | [] => do
      errln io (text "usage: source file [args]")
      pure 1
    | path :: args => runScript h rec path args io
  else if name = text "eval" then runSource h rec (join [' '] argv.tail) io
  else fun s =>
    let r := h.builtin s.calls argv io s.shell
    some (r.1, { s.called with shell := r.2 })

/-- The assignments in front of a command; what the variables were is returned. -/
def assign : List (Text × Word) → M (List (Text × Option Text))
  | [] => pure []
  | (name, value) :: assigns => do
    let v ← expandOne h value
    let sh ← getShell
    setShell fun sh => { sh.setVar name v with inScope := sh.inScope ++ [name] }
    let saved ← assign assigns
    pure ((name, sh.vars name) :: saved)

/-- The assignments of a command without words. -/
def assignOnly : List (Text × Word) → M Unit
  | [] => pure ()
  | (name, value) :: assigns => do
    let v ← expandOne h value
    setShell fun sh => sh.setVar name v
    assignOnly assigns

def Shell.restore (sh : Shell) (saved : List (Text × Option Text)) : Shell :=
  { sh with vars := saved.foldl (fun vars r => Function.update vars r.1 r.2) sh.vars }

/-- The alias in front of the arguments, if there is one. -/
def Shell.unalias (sh : Shell) : List Text → List Text
  | [] => []
  | first :: rest =>
    match sh.aliases first with
    | some words => (words.splitOnP Text.isWhitespace).filter (· ≠ []) ++ rest
    | none => first :: rest

/-- The command itself, with its descriptors. -/
def runCommand (argv : List Text) (inner io : Io) : M Int := do
  let sh ← getShell
  match sh.functions (argv.headD []) with
  | some body => do
    setShell fun sh => { sh with args := argv }
    let status ← rec body inner
    setShell fun now => { now with args := sh.args, flow := if now.flow = .return then .normal else now.flow }
    pure status
  | none =>
    if h.isBuiltin (argv.headD []) then runBuiltin h rec argv inner
    else do
      match ← spawnExternal h argv inner true with
      | .ok pid => waitForeground h pid
      | .error e => do
        errln io e
        pure 127

def runSimple (assigns : List (Text × Word)) (words : List Word) (redirs : List Redir) (io : Io) : M Int := do
  let argv ← expandWords h words
  let sh ← getShell
  let argv := sh.unalias argv
  if argv = [] then do
    assignOnly h assigns
    match ← openRedirs h redirs io [] with
    | .ok (_, opened) => do
      closeAll opened
      pure 0
    | .error e => do
      errln io (text "hsh: " ++ e)
      pure 1
  else do
    let saved ← assign h assigns
    onlyIf sh.xtrace (errln io (text "+ " ++ join [' '] argv))
    match ← openRedirs h redirs io [] with
    | .error e => do
      errln io (text "hsh: " ++ e)
      pure 1
    | .ok (inner, opened) => do
      let status ← runCommand h rec argv inner io
      closeAll opened
      setShell fun now => { now with inScope := now.inScope.take sh.inScope.length }.restore saved
      pure status

def runPipeline (stages : List Node) (io : Io) : M Int :=
  match stages with
  | [stage] => rec stage io
  | stages => do
    match ← runStages h io stages 0 io.input [] with
    | none => pure 1
    | some results => do
      let codes ← waitStages h results.reduceOption
      note (.finished results codes (pipelineStatus codes))
      pure (pipelineStatus codes)

/-- `Node::And(..) | Node::Or(..)` -/
def Node.isAndOr : Node → Bool
  | .and _ _ => true
  | .or _ _ => true
  | _ => false

def runItem (item : Node) (background : Bool) (io : Io) : M Int :=
  if background then runBackground h item io else rec item io

def runItems (io : Io) : List (Node × Bool) → Int → M Int
  | [], status => pure status
  | (item, background) :: items, status => do
    let sh ← getShell
    if sh.exit.isSome ∨ sh.flow ≠ .normal then pure status
    else do
      let status ← runItem h rec item background io
      setShell fun sh => { sh with status := status }
      let sh ← getShell
      if sh.errexit ∧ status ≠ 0 ∧ item.isAndOr = false then do
        setShell fun sh => { sh with exit := some status }
        pure status
      else runItems io items status

def runBranches (io : Io) (otherwise : Option Node) : List (Node × Node) → M Int
  | [] =>
    match otherwise with
    | some body => rec body io
    | none => pure 0
  | (cond, body) :: branches => do
    let c ← runGuarded rec cond io
    if c = 0 then rec body io else runBranches io otherwise branches

/-- Whether a loop goes on after its body. -/
def afterBody : M Bool := do
  let sh ← getShell
  match sh.flow with
  | .break => do
    setShell fun sh => { sh with flow := .normal }
    pure false
  | .continue => do
    setShell fun sh => { sh with flow := .normal }
    pure true
  | .return => pure false
  | .normal => pure true

def runLoop (cond body : Node) (isUntil : Bool) (io : Io) : Nat → Int → M Int
  | 0, _ => fun _ => none
  | turns + 1, result => do
    let c ← runGuarded rec cond io
    let sh ← getShell
    if decide (c = 0) = isUntil ∨ sh.exit.isSome then pure result
    else do
      let result ← rec body io
      if ← afterBody then runLoop cond body isUntil io turns result else pure result

def runFor (name : Text) (body : Node) (io : Io) : List Text → Int → M Int
  | [], result => pure result
  | value :: values, _ => do
    setShell fun sh => sh.setVar name value
    let result ← rec body io
    if ← afterBody then do
      let sh ← getShell
      if sh.exit.isSome then pure result else runFor name body io values result
    else pure result

def runNode (fuel : Nat) (node : Node) (io : Io) : M Int :=
  match node with
  | .list items => do
    let sh ← getShell
    runItems h rec io items sh.status
  | .and a b => do
    let first ← runGuarded rec a io
    let sh ← getShell
    if first = 0 ∧ sh.flow = .normal then rec b io else pure first
  | .or a b => do
    let first ← runGuarded rec a io
    let sh ← getShell
    if first ≠ 0 ∧ sh.flow = .normal then rec b io else pure first
  | .pipeline stages negate => do
    let status ← runPipeline h rec stages io
    pure (if negate then (if status = 0 then 1 else 0) else status)
  | .ifThen branches otherwise _ => runBranches rec io otherwise branches
  | .loop cond body isUntil _ => runLoop rec cond body isUntil io fuel 0
  | .forIn name items body _ => do
    let values ← expandWords h items
    runFor rec name body io values 0
  | .group body redirs _ => do
    match ← openRedirs h redirs io [] with
    | .ok (inner, opened) => do
      let status ← rec body inner
      closeAll opened
      pure status
    | .error e => do
      errln io (text "hsh: " ++ e)
      pure 1
  | .function name body => do
    setShell fun sh => { sh with functions := Function.update sh.functions name (some body) }
    pure 0
  | .simple assigns words redirs _ => runSimple h rec assigns words redirs io

end

def run (h : Host) : Nat → Node → Io → M Int
  | 0, _, _ => fun _ => none
  | fuel + 1, node, io => do
    let sh ← getShell
    if sh.exit.isSome then pure sh.status
    else do
      let status ← runNode h (run h fuel) fuel node io
      setShell fun sh => { sh with status := status }
      pure status

/-! ### What is asked of a run -/

namespace Mark

def openedFd : Mark → Option Nat
  | opened fd => some fd
  | _ => none

def closedFd : Mark → Option Nat
  | closed fd => some fd
  | _ => none

def startedPid : Mark → Option Int
  | started pid => some pid
  | _ => none

def waitedPid : Mark → Option Int
  | waited pid => some pid
  | _ => none

/-- The status of a pipeline is the exit status of its last stage, and is not 0 when that stage could not
be started. -/
def StatusRight : Mark → Prop
  | finished stages codes status =>
    match stages.getLast? with
    | some (some _) => ∃ code ∈ codes.getLast?, status = exitStatus code
    | some none => status ≠ 0
    | none => True
  | _ => True

/-- No redirection fails behind one that has opened its file, no pipe of a pipeline fails behind its first,
and when the last stage of a pipeline cannot be started the last one that could exits with an error. -/
def Sound : Mark → Prop
  | refused before => before = []
  | broken index _ _ => index = 0
  | finished stages codes _ => stages.getLast? = some none → ∃ code ∈ codes.getLast?, exitStatus code ≠ 0
  | _ => True

end Mark

/-- The state after a run that began with these descriptors and an empty history. -/
structure Balanced (held : List Nat) (s : State) : Prop where
  held : s.held.Perm held
  closed : (s.history.filterMap Mark.openedFd).Perm (s.history.filterMap Mark.closedFd)
  waited : (s.history.filterMap Mark.startedPid).Perm (s.history.filterMap Mark.waitedPid)
  status : ∀ m ∈ s.history, m.StatusRight

end HamixOS.Hsh
