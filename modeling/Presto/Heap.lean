import Presto.Program.Traced

/-! The Lua values and tables of a presto process: target objects, their classes and the
attribute lookup of `__target.mt.__index`. -/
namespace Presto
open Program

/-- Identity of a Lua table that is used as a target object. -/
abbrev ObjId := ℕ

/-- The functions stored in `__target`. -/
inductive Method
  | new
  | dependsOn
  | checkForCycle
  | bringUpToDate
  | getTimestamp
  | getExists
  deriving DecidableEq, Repr

/-- Functions: those of mkinit.lua that end up in a field, and those of makefiles. -/
inductive Fn
  | method (m : Method)
  | defined
  | nilCommand
  | dirExists
  | dirCommand
  | user (n : ℕ)
  deriving DecidableEq, Repr

/-- `names` is a `target_list`, `proxy` the global `target`, `proc` a process table and
`table` any table that is no target. -/
inductive Value
  | nil
  | bool (b : Bool)
  | num (i : ℤ)
  | str (s : String)
  | fn (f : Fn)
  | obj (o : ObjId)
  | names (l : Finset String)
  | proxy
  | proc (n : ℕ)
  | table (n : ℕ)
  deriving DecidableEq

def Value.truthy : Value → Bool
  | .nil => false
  | .bool b => b
  | _ => true

/-- `type(v)` -/
def Value.typeName : Value → String
  | .nil => "nil"
  | .bool _ => "boolean"
  | .num _ => "number"
  | .str _ => "string"
  | .fn _ => "function"
  | _ => "table"

/-- `make.status`; the codes are the numbers that are stored in a target's `status`. -/
inductive Status
  | none
  | updated
  | running
  | error
  deriving DecidableEq, Repr

def Status.toValue : Status → Value
  | .none => .num 0
  | .updated => .num 1
  | .running => .num 2
  | .error => .num 3

/-- A table with a metatable. `chain` lists the classes that `__index` leads through, nearest
first; both are fixed when `__target.new` creates the table. With `isTarget` the last link
ends in `__target.mt`. -/
structure Obj where
  chain : List ObjId
  isTarget : Bool
  raw : String → Value

def Obj.set (x : Obj) (key : String) (v : Value) : Obj :=
  { x with raw := Function.update x.raw key v }

/-- What a path names on disk. -/
inductive Entry
  | absent
  | file (time : ℤ)
  | dir
  deriving DecidableEq, Repr

abbrev FileSystem := String → Entry

/-- `make.file.exists` -/
def FileSystem.exists (fs : FileSystem) (path : String) : Bool := fs path ≠ .absent

/-- `make.file.time`; a directory cannot be opened as a file. -/
def FileSystem.time (fs : FileSystem) (path : String) : Option ℤ :=
  match fs path with
  | .file t => some t
  | _ => none

/-- `make.dir.is_dir` -/
def FileSystem.isDir (fs : FileSystem) (path : String) : Bool := fs path = .dir

/-- A job: its coroutine (the command, and how often it was resumed), the one name in `targets`,
and the handle of its last yield. -/
structure Job where
  command : Fn
  target : Value
  resumed : ℕ
  handle : Value
  deriving DecidableEq

/-- The mutable state of a presto process. `registry` is the table `__target` and `defined`
the raw field of the proxy `target`; `tick` counts the traversals made with `pairs`. -/
structure Core where
  heap : ObjId → Obj
  next : ObjId
  registry : String → Value
  defined : Value
  pos : ℕ
  count : ℤ
  running : Finmap (fun _ : ℕ => Job)
  goals : Finset String
  failure : Bool
  deleteOnError : Finset String
  files : FileSystem
  tick : ℕ

structure Flags where
  alwaysMake : Bool
  keepGoing : Bool
  question : Bool
  deriving DecidableEq, Repr

/-- What one `coroutine.resume` of a command comes back with. -/
inductive Signal
  | yielded (handle : Value)
  | finished
  | raised (v : Value)
  deriving DecidableEq

/-- One resume of a command: its effect on the files, the names it adds to
`make.delete_on_error`, and how it comes back. -/
structure Resumption where
  effect : FileSystem → FileSystem
  unlink : Finset String
  signal : Signal

/-- What is fixed for a run: the command line, the Lua stack and the passes a loop may make,
the order of each `pairs`, and what the code of makefiles and the system calls do. A function that
is called by `call` gets a value, the attributes of it, and the files. -/
structure Env where
  flags : Flags
  slots : ℤ
  stack : ℕ
  fuel : ℕ
  names : Enumeration String
  jobs : Enumeration ℕ
  resume : Fn → Value → ℕ → ℕ → Resumption
  call : Fn → Value → (String → Value) → FileSystem → Except Value Value
  md : String → FileSystem → Option FileSystem

/-- A run without flags and with one job slot: tables are traversed in the order of their
keys, every command finishes at once, and every function of a makefile returns nothing. -/
def Env.plain : Env where
  flags := ⟨false,false,false⟩
  slots := 1
  stack := 100
  fuel := 100
  names := .sorted
  jobs := .sorted
  resume := fun _ _ _ _ => ⟨id,∅,.finished⟩
  call := fun _ _ _ _ => .ok .nil
  md := fun path fs => some (Function.update fs path .dir)

/-- Code of mkinit.lua that leaves no observable event. -/
abbrev Lua (α : Type) := Prog Core Value α

def luaError {α : Type} (msg : String) : Lua α := Prog.raise (.str msg)

namespace Core
variable (c : Core)

def rawget (o : ObjId) (key : String) : Value := (c.heap o).raw key

def rawset (o : ObjId) (key : String) (v : Value) : Core :=
  { c with heap := Function.update c.heap o ((c.heap o).set key v) }

/-- The first table on the way from `o` through its classes that has `key`. -/
def holder (o : ObjId) (key : String) : Option ObjId :=
  (o::(c.heap o).chain).find? fun p => c.rawget p key ≠ .nil

/-- Reading `o[key]` for every key but `timestamp` and `exists`. -/
def attr (o : ObjId) (key : String) : Value :=
  match c.holder o key with
  | some p => c.rawget p key
  | none => if (c.heap o).isTarget then c.registry key else .nil

/-- What code of a makefile reads of `o`, but for the two attributes that are computed. -/
def seen (o : ObjId) (key : String) : Value :=
  if key ∈ ["exists","timestamp"] then .nil else c.attr o key

/-- The table that `__target.mt.__index` receives as `self`: the last class of `o`. -/
def base (o : ObjId) : ObjId := (c.heap o).chain.getLast?.getD o

@[simp] theorem chain_rawset (o p : ObjId) (key : String) (v : Value) :
    ((c.rawset o key v).heap p).chain = (c.heap p).chain := by
  by_cases h : p = o
  · subst p; simp [rawset,Obj.set]
  · simp [rawset,h]

@[simp] theorem isTarget_rawset (o p : ObjId) (key : String) (v : Value) :
    ((c.rawset o key v).heap p).isTarget = (c.heap p).isTarget := by
  by_cases h : p = o
  · subst p; simp [rawset,Obj.set]
  · simp [rawset,h]

@[simp] theorem rawget_rawset (o p : ObjId) (key j : String) (v : Value) :
    (c.rawset o key v).rawget p j = if p = o ∧ j = key then v else c.rawget p j := by
  by_cases h : p = o
  · subst p
    by_cases hj : j = key <;> simp [rawset,rawget,Obj.set,hj]
  · simp [rawset,rawget,h]

/-- A lookup only sees the tables on the chain and, behind them, the registry. -/
theorem attr_congr {c c' : Core} {o : ObjId} {key : String}
    (hchain : (c'.heap o).chain = (c.heap o).chain)
    (hraw : ∀ p ∈ o::(c.heap o).chain, c'.rawget p key = c.rawget p key)
    (htarget : (c'.heap o).isTarget = (c.heap o).isTarget)
    (hreg : c.holder o key = none → c'.registry key = c.registry key) :
    c'.attr o key = c.attr o key := by
  have hh : c'.holder o key = c.holder o key := by
    unfold holder
    rw [hchain]
    apply List.find?_congr
    intro p hp
    rw [hraw p hp]
  unfold attr
  rw [hh]
  cases hc : c.holder o key with
  | none => rw [htarget,hreg hc]
  | some p => exact hraw p (List.mem_of_find?_eq_some hc)

theorem attr_eq_rawget {c : Core} {o : ObjId} {key : String} (h : c.rawget o key ≠ .nil) :
    c.attr o key = c.rawget o key := by
  simp [attr,holder,h]

end Core

/-- The path argument of `make.file.exists`. -/
def checkPath (v : Value) : Lua String :=
  match v with
  | .str s => pure s
  | .num i => pure (toString i)
  | _ => luaError ("bad argument #1 to 'exists' (string expected, got " ++ v.typeName ++ ")")

/-- `__target:get_timestamp()` -/
def getTimestamp (self : ObjId) : Lua Value := do
  let c ← Prog.gets id
  let path ← checkPath (c.attr self "name")
  pure (.num (if c.files.exists path then (c.files.time path).getD 0 else 0))

/-- `__target:get_exists()` -/
def getExists (self : ObjId) : Lua Value := do
  let c ← Prog.gets id
  if (c.attr self "name").truthy then
    let path ← checkPath (c.attr self "name")
    pure (.bool (c.files.exists path))
  else pure (.bool false)

/-- `self.get_exists(self)` or `self.get_timestamp(self)`, as `getter` says. -/
def callGetter (E : Env) (self : ObjId) (getter : String) : Lua Value := do
  let c ← Prog.gets id
  match c.attr self getter with
  | .fn (.method .getExists) => getExists self
  | .fn (.method .getTimestamp) => getTimestamp self
  | .fn f => Prog.ofExcept (E.call f (.obj self) (c.seen self) c.files)
  | _ => luaError "attempt to call field (not a function value)"

/-- Reading `o.exists` or `o.timestamp`: a table on the chain may hold the value, otherwise
`__target.mt.__index` computes it and stores it in the table it was called for. -/
def readCached (E : Env) (key getter : String) (o : ObjId) : Lua Value := do
  let c ← Prog.gets id
  match c.holder o key with
  | some p => pure (c.rawget p key)
  | none =>
    if (c.heap o).isTarget then
      let v ← callGetter E (c.base o) getter
      Prog.modify fun c' => c'.rawset (c.base o) key v
      pure v
    else pure .nil

def readExists (E : Env) (o : ObjId) : Lua Value := readCached E "exists" "get_exists" o

def readTimestamp (E : Env) (o : ObjId) : Lua Value := readCached E "timestamp" "get_timestamp" o

/-- `pairs` over a `target_list`. -/
def enumerate (E : Env) (s : Finset String) : Lua (List String) := do
  let c ← Prog.gets id
  Prog.modify fun c' => { c' with tick := c'.tick+1 }
  pure (E.names.order c.tick s)

theorem run_enumerate (E : Env) (s : Finset String) (c : Core) :
    enumerate E s c = (.ret (E.names.order c.tick s),{ c with tick := c.tick+1 }) := rfl

end Presto
