import Presto.Program.Loop

/-! Processes: `make.proc.spawn`, the reader `make.proc.flushio` of the pipe to a child, and
`make.run`, which waits for the child in the coroutine of a command. -/
namespace Presto
open Program

abbrev Bytes := List UInt8

def CR : UInt8 := 13
def LF : UInt8 := 10

/-- `hProcess`: zero if `CreateProcessW` did not fill in the process information, and
`INVALID_HANDLE_VALUE` once the process is done. -/
inductive Handle
  | null
  | process
  | invalid
  deriving DecidableEq, Repr

/-- `struct process`; `leftovers` is a C string in a buffer of 1024 bytes. -/
structure Process where
  handle : Handle
  exitCode : ℕ
  waiting : Bool
  leftovers : Bytes
  deriving DecidableEq

/-- How one `ReadFile` or `GetOverlappedResult` ends, as long as a writer of the pipe is left. -/
inductive ReadResult
  | data (bytes : Bytes)
  | incomplete
  | failed (code : ℕ)
  deriving DecidableEq

/-- What the system and the print function do in one call of `make.run`: an error before
`CreateProcessW`, the exit code of the child if one is created, and the reads until the pipe
is broken. Without a child nobody writes. -/
structure Child where
  command : String
  noisy : Bool
  print : Bytes → Option String
  printCommand : Option String
  setup : Option String
  created : Option ℕ
  reads : List ReadResult
  silent : created = none → reads = []

/-- The process table, the reads that are still to come and the lines given to the print
function. -/
structure Pipe where
  proc : Process
  reads : List ReadResult
  printed : List Bytes

/-- An error of Lua, or a write beyond the end of `leftovers`. -/
inductive Fault
  | lua (msg : String)
  | overflow
  deriving DecidableEq

abbrev PipeIo (α : Type) := Prog Pipe Fault α

/-- The loop of `make_proc_flushio_helper` over the bytes of one read, with the text of the
line so far, of which `leftovers` is the beginning: the lines to print, and the new
`leftovers`. A NUL ends the loop. -/
def cutLines : Bytes → Bytes → List Bytes × Bytes
  | line,[] => ([],line)
  | line,[b] => if b = 0 then ([],line) else if b = CR then ([line],[]) else ([],line++[b])
  | line,b::c::rest =>
    if b = 0 then ([],line)
    else if b = CR then
      let r := if c = LF then cutLines [] rest else cutLines [] (c::rest)
      (line::r.1,r.2)
    else cutLines (line++[b]) (c::rest)

section
variable (C : Child)

def printLine (line : Bytes) : PipeIo Unit := do
  Prog.modify fun s => { s with printed := s.printed++[line] }
  match C.print line with
  | none => pure ()
  | some msg => Prog.raise (.lua msg)

def printLines : List Bytes → PipeIo Unit
  | [] => pure ()
  | line::lines => do
    printLine C line
    printLines lines

/-- `make_proc_flushio_helper`. Nobody reads `leftovers` again after the print function has
raised. -/
def flushioHelper (bytes : Bytes) : PipeIo Unit := do
  let s ← Prog.gets id
  let cut := cutLines s.proc.leftovers bytes
  printLines C cut.1
  if cut.2.length < 1024 then
    Prog.modify fun s => { s with proc := { s.proc with leftovers := cut.2 } }
  else Prog.raise .overflow

/-- `GetExitCodeProcess` and the end of the handles. The exit code stays as it is for a handle
that is no process. -/
def Pipe.close (s : Pipe) : Pipe := { s with proc := { s.proc with
  exitCode := if s.proc.handle = .process then C.created.getD 0 else s.proc.exitCode
  handle := .invalid
  waiting := false } }

/-- The normal end: the pipe is broken. -/
def brokenPipe : PipeIo Unit := do
  Prog.modify (Pipe.close C)
  let s ← Prog.gets id
  if s.proc.leftovers ≠ [] then flushioHelper C [CR] else pure ()

def setWaiting (b : Bool) : PipeIo Unit :=
  Prog.modify fun s => { s with proc := { s.proc with waiting := b } }

/-- What follows a read that failed. -/
def readError (r : ReadResult) : PipeIo Unit :=
  match r with
  | .failed code => Prog.raise (.lua ("error reading from pipe: " ++ toString code))
  | _ => setWaiting true

/-- `while(ReadFile(...))` over the reads that are to come. -/
def readLoop : List ReadResult → PipeIo Unit
  | [] => brokenPipe C
  | r::reads => do
    Prog.modify fun s => { s with reads := reads }
    match r with
    | .data bytes =>
      flushioHelper C bytes
      setWaiting false
      readLoop reads
    | _ => readError r

/-- `GetOverlappedResult` for a read that is pending. -/
def pendingRead : List ReadResult → PipeIo Unit
  | [] => brokenPipe C
  | r::reads => do
    Prog.modify fun s => { s with reads := reads }
    match r with
    | .data bytes =>
      flushioHelper C bytes
      setWaiting false
      readLoop C reads
    | _ => readError r

/-- `make.proc.flushio(proc)` -/
def flushio : PipeIo Unit := do
  let s ← Prog.gets id
  if s.proc.handle = .invalid then pure ()
  else if s.proc.waiting then pendingRead C s.reads
  else readLoop C s.reads

/-- `make.proc.exit_code(proc)` -/
def exitCode : PipeIo (Option ℕ) := do
  let s ← Prog.gets id
  pure (if s.proc.handle = .invalid then some s.proc.exitCode else none)

/-- `while exit_code == nil do ... end` -/
def poll : ℕ → PipeIo ℕ
  | 0 => Prog.diverge
  | n+1 => do
    match ← exitCode with
    | some code => pure code
    | none =>
      flushio C
      poll n

/-- What `make.proc.spawn` leaves behind; the result of `CreateProcessW` is not looked at. -/
def spawned : Pipe where
  proc := ⟨if C.created = none then .null else .process,0,false,[]⟩
  reads := C.reads
  printed := []

/-- `make.run(command,env,printfn)`; every call of `flushio` gets at least one read. -/
def makeRun : PipeIo Unit :=
  match if C.noisy then C.printCommand else none with
  | some msg => Prog.raise (.lua msg)
  | none =>
    match C.setup with
    | some msg => Prog.raise (.lua msg)
    | none => do
      Prog.modify fun _ => spawned C
      let code ← poll C (C.reads.length+2)
      if code ≠ 0 then Prog.raise (.lua ("[" ++ C.command ++ "] Error " ++ toString code))
      else pure ()

end
end Presto
