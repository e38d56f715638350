import Presto.Program.Overwrite
import Presto.Program.Traced

/-! The command line: `parse_commandline`, which runs before and after mkinit.lua is loaded, and
what `pmain` does around it. -/
namespace Presto
open Program

/-- A C string. -/
abbrev Arg := List Char

/-- What the command line sets besides the goals. `env` is the raw table `make.env`. -/
@[ext] structure Settings where
  flags : Finset String
  slots : ℤ
  env : Arg → Option Arg
  cwd : Arg

/-- What `parse_commandline` prints: `print_usage` and `print_version`. -/
inductive Notice
  | usage
  | version
  deriving DecidableEq, Repr

/-- The state of the process: the `make` table, `struct Smain` and what has been printed. There is
no table `make.goals` before mkinit.lua is loaded, and no metatable of `make.env`. -/
structure Shell where
  settings : Settings
  goals : Option (Finset Arg)
  metatable : Bool
  status : ℕ
  loadedFile : Bool
  quit : Bool
  printed : List Notice

inductive Code
  | statement (s : Arg)
  | file (name : Arg)
  | library (name : Arg)
  | site
  | init
  deriving DecidableEq

/-- What is not in the program: the code that is run, with its exit status, and how a path
leads from one directory to another. -/
structure System where
  run : Code → Shell → Shell × ℕ
  chdir : Arg → Arg → Arg

abbrev Cmd (α : Type) := Prog Shell String α

def flagName : Char → Option String
  | 'B' => some "always_make"
  | 'd' => some "debug"
  | 'k' => some "keep_going"
  | 'n' => some "noisy"
  | 'q' => some "question"
  | 'Q' => some "quit"
  | _ => none

/-- `isspace` in the C locale. -/
def isSpace (c : Char) : Bool := c = ' ' || (9 ≤ c.toNat && c.toNat ≤ 13)

/-- `atoi` for numbers that fit into an `int`. -/
def atoi (s : Arg) : ℤ :=
  let s := s.dropWhile isSpace
  let digits := (if s.head? = some '-' ∨ s.head? = some '+' then s.tail else s).takeWhile Char.isDigit
  let n : ℕ := digits.foldl (fun n c => 10*n+(c.toNat - '0'.toNat)) 0
  if s.head? = some '-' then -n else n

example : atoi " -12x".toList = -12 := by decide

def Settings.setFlag (s : Settings) (name : String) : Settings :=
  { s with flags := insert name s.flags }

def Settings.setMaxJobs (s : Settings) (n : ℤ) : Settings :=
  { s with slots := if n = 0 then 1024 else n }

def upper (k : Arg) : Arg := k.map Char.toUpper

/-- `make.env[key] = value`; the metatable that mkinit.lua installs sees new keys only. -/
def Shell.setEnv (s : Shell) (key : Arg) (value : Option Arg) : Shell :=
  let k := if s.metatable = true ∧ s.settings.env key = none then upper key else key
  { s with settings := { s.settings with env := Function.update s.settings.env k value } }

/-- The key and the value of an assignment; no value is `nil`. -/
def assignment (a : Arg) : Arg × Option Arg :=
  let value := (a.dropWhile (· ≠ '=')).tail
  (upper (a.takeWhile (· ≠ '=')),if value = [] then none else some value)

section
variable (S : System) (execute : Bool)

def badUsage : Cmd Unit := Prog.modify fun s => { s with printed := .usage::s.printed, status := 1 }

def showVersion : Cmd Unit := Prog.modify fun s => { s with printed := .version::s.printed, status := 1 }

/-- How the loop over a cluster of switches ends: `parse_commandline` returns, or goes on with
the next element, or with the one after it. -/
inductive ClusterEnd
  | left
  | next
  | used
  deriving DecidableEq, Repr

/-- `get_arg`: the rest of the cluster, or else the next element. -/
def getArg (sw : Arg) (next : Option Arg) : Option (Arg × ClusterEnd) :=
  if sw = [] then next.map fun a => (a,.used) else some (sw,.next)

def handleStatus (code : Code) (after : Shell → Shell) (e : ClusterEnd) : Cmd ClusterEnd := do
  let s ← Prog.gets id
  let r := S.run code s
  Prog.modify fun _ => { r.1 with status := r.2, printed := s.printed }
  if r.2 ≠ 0 then pure .left
  else do
    Prog.modify after
    pure e

/-- The switches with an argument. For `-C` the function `make.dir.cd` looks for its argument
at the bottom of the stack, where `pmain` has its light userdata. -/
def switchWithArg (c : Char) (arg : Arg) (e : ClusterEnd) : Cmd ClusterEnd :=
  match c with
  | 'C' => Prog.raise "bad argument #1 to '?' (string expected, got userdata)"
  | 'e' => if execute then handleStatus S (.statement arg) id e else pure e
  | 'f' =>
    if execute then handleStatus S (.file arg) (fun s => { s with loadedFile := true }) e else pure e
  | 'l' => if execute then handleStatus S (.library arg) id e else pure e
  | _ => do
    Prog.modify fun s => { s with settings := s.settings.setMaxJobs (atoi arg) }
    pure e

def takesArg (c : Char) : Bool := c ∈ ['C','e','f','l','j']

def switches (next : Option Arg) : Arg → Cmd ClusterEnd
  | [] => pure .next
  | c::sw =>
    match flagName c with
    | some name => do
      Prog.modify fun s => { s with
        settings := s.settings.setFlag name
        quit := s.quit || c = 'Q' }
      switches next sw
    | none =>
      if c = 'v' then do
        showVersion
        pure .left
      else if takesArg c then
        match getArg sw next with
        | none => do
          badUsage
          pure .left
        | some (arg,e) => switchWithArg S execute c arg e
      else do
        badUsage
        pure .left

/-- A parameter that is not a switch. -/
def parameter (a : Arg) : Cmd Unit :=
  if '=' ∈ a then Prog.modify fun s => s.setEnv (assignment a).1 (assignment a).2
  else do
    let s ← Prog.gets id
    match s.goals with
    | none => Prog.raise "bad argument #9 to '?' (table expected, got nil)"
    | some goals => Prog.modify fun s => { s with goals := some (insert a goals) }

/-- `parse_commandline`; the flag says whether switches are still parsed. -/
def parseArgs : Bool → List Arg → Cmd Unit
  | _,[] => pure ()
  | parsing,a::argv =>
    if parsing = true ∧ a.head? = some '-' then
      if a.tail.head? = some '-' then
        if a.tail.tail = [] then parseArgs false argv else badUsage
      else do
        match ← switches S execute argv.head? a.tail with
        | .left => pure ()
        | .next => parseArgs true argv
        | .used =>
          match argv with
          | [] => pure ()
          | _::rest => parseArgs true rest
    else do
      parameter a
      parseArgs parsing argv

def parseCommandline (argv : List Arg) : Cmd Unit := parseArgs S execute true argv

end

section
variable (S : System)

/-- `handle_status(dolibrary(L,"mkinit"))`, as far as it concerns the command line. -/
def mkinit : Cmd Unit := Prog.modify fun s => { s with goals := some ∅, metatable := true }

/-- Site code and `PRESTO_INIT`. -/
def runCode (code : Code) : Cmd Unit := do
  let s ← Prog.gets id
  Prog.modify fun _ => { (S.run code s).1 with status := (S.run code s).2, printed := s.printed }

/-- `pmain` up to the second pass over the command line. -/
def pmain (argv : List Arg) : Cmd Unit := do
  parseCommandline S false argv
  let s ← Prog.gets id
  if s.status ≠ 0 then pure ()
  else do
    mkinit
    runCode S .site
    let s ← Prog.gets id
    if s.status ≠ 0 then pure ()
    else do
      runCode S .init
      let s ← Prog.gets id
      if s.status ≠ 0 then pure () else parseCommandline S true argv

/-- The state that `luaopen_make` leaves behind. -/
def Shell.start (env : Arg → Option Arg) (cwd : Arg) : Shell where
  settings := ⟨∅,1,env,cwd⟩
  goals := none
  metatable := false
  status := 0
  loadedFile := false
  quit := false
  printed := []

end
end Presto
