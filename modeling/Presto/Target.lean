import Presto.Heap

/-! Declaring targets: the proxy `target` over the registry `__target`, the constructor,
`depends_on` with its cycle check, and the two functions that make special targets.
Error texts are given without the position that Lua's `error` puts in front. -/
namespace Presto
open Program

/-- `__target.mt`, `__phony_target` and `__dir_target`, the tables mkinit.lua creates. -/
def mtTable : ObjId := 0
def phonyClass : ObjId := 1
def dirClass : ObjId := 2

/-- `make.beginning_of_time`, the lowest double. -/
def beginningOfTime : ℤ := -(2^1024-2^971)

def noFields : String → Value := fun _ => .nil

/-- The state in which mkinit.lua leaves a process that has no target yet. -/
def Core.init (files : FileSystem) : Core where
  heap := fun o =>
    if o = phonyClass then
      ⟨[],true,fun key => match key with
        | "deps" => .names ∅
        | "exists" => .bool false
        | "timestamp" => .num 0
        | "command" => .fn .nilCommand
        | _ => .nil⟩
    else if o = dirClass then
      ⟨[],true,fun key => match key with
        | "deps" => .names ∅
        | "exists" => .fn .dirExists
        | "timestamp" => .num beginningOfTime
        | "command" => .fn .dirCommand
        | _ => .nil⟩
    else ⟨[],false,noFields⟩
  next := 3
  registry := fun key => match key with
    | "mt" => .obj mtTable
    | "new" => .fn (.method .new)
    | "depends_on" => .fn (.method .dependsOn)
    | "check_for_cycle" => .fn (.method .checkForCycle)
    | "bring_up_to_date" => .fn (.method .bringUpToDate)
    | "get_timestamp" => .fn (.method .getTimestamp)
    | "get_exists" => .fn (.method .getExists)
    | _ => .nil
  defined := .fn .defined
  pos := 0
  count := 0
  running := ∅
  goals := ∅
  failure := false
  deleteOnError := ∅
  files := files
  tick := 0

def hasBackslash (key : String) : Bool := key.toList.contains '\\'

/-- The table that `__target:new(t)` sets up for the fields of `t`. `self` is the class, or
`none` for the global `target`. -/
def Core.instance (c : Core) (self : Option ObjId) (fields : String → Value) : Obj where
  chain := match self with
    | none => []
    | some p => p::(c.heap p).chain
  isTarget := match self with
    | none => true
    | some p => (c.heap p).isTarget
  raw := Function.update fields "deps" (.names ∅)

/-- The state with one more table, at the address `c.next`. -/
def Core.alloc (c : Core) (x : Obj) : Core :=
  { c with heap := Function.update c.heap c.next x, next := c.next+1 }

/-- `__target:new(t)` for a `t` without `t[1]`. -/
def newTarget (self : Option ObjId) (fields : String → Value) : Lua ObjId := fun c =>
  (.ret c.next,c.alloc (c.instance self fields))

@[simp] theorem run_bind_newTarget {α : Type} (self : Option ObjId) (fields : String → Value)
    (f : ObjId → Lua α) (c : Core) :
    (newTarget self fields >>= f) c = f c.next (c.alloc (c.instance self fields)) := rfl

@[simp] theorem wp_bind_newTarget {α : Type} (self : Option ObjId) (fields : String → Value)
    (f : ObjId → Lua α) (Q : Outcome Value α → Core → Prop) (c : Core) :
    wp (newTarget self fields >>= f) Q c ↔ wp (f c.next) Q (c.alloc (c.instance self fields)) :=
  Iff.rfl

/-- Reading `target[key]`. -/
def targetIndex (key : String) : Lua Value := do
  let c ← Prog.gets id
  if key = "defined" ∧ c.defined ≠ .nil then pure c.defined
  else if hasBackslash key then luaError "target name should not contain backslashes"
  else if c.registry key ≠ .nil then pure (c.registry key)
  else
    let o ← newTarget none (Function.update noFields "name" (.str key))
    pure (.obj o)

/-- The three writes at the end of `target.__newindex`. -/
def Core.register (c : Core) (key : String) (o : ObjId) : Core :=
  let named := c.rawset o "name" (.str key)
  let withDefault := if c.registry "__default" = .nil
    then Function.update c.registry "__default" (.obj o) else c.registry
  { named with registry := Function.update withDefault key (.obj o) }

/-- Writing `target[key] = v`. A function is wrapped into a target, and the assignment then
made again with that target passes the same checks. -/
def targetNewindex (key : String) (v : Value) : Lua Unit := do
  let c ← Prog.gets id
  if key = "defined" ∧ c.defined ≠ .nil then Prog.modify fun c' => { c' with defined := v }
  else if hasBackslash key then
    luaError ("target name '" ++ key ++ "' should not contain backslashes")
  else if c.registry key ≠ .nil then
    luaError ("cannot modify protected value (or existing target) '" ++ key ++ "'")
  else match v with
    | .fn f =>
      let o ← newTarget none (Function.update noFields "command" (.fn f))
      Prog.modify fun c' => c'.register key o
    | .obj o =>
      if (c.heap o).isTarget then Prog.modify fun c' => c'.register key o
      else luaError "rvalue is not a target"
    | _ => luaError "rvalue is not a target"

/-- `self:new{key,...}` -/
def newNamed (self : Option ObjId) (key : String) (fields : String → Value) : Lua ObjId := do
  let o ← newTarget self fields
  targetNewindex key (.obj o)
  pure o

/-- `target:defined(key)`. The method is a raw field of the proxy, which makefiles can
replace by a function of their own. -/
def targetDefined (E : Env) (key : Value) : Lua Bool := do
  let c ← Prog.gets id
  match c.defined with
  | .fn .defined =>
    match key with
    | .str k => pure (decide (c.registry k ≠ .nil))
    | _ => pure false
  | .fn f =>
    let v ← Prog.ofExcept (E.call f key (fun _ => .nil) c.files)
    pure v.truthy
  | _ => luaError "attempt to call method 'defined' (a table value)"

/-- The table of a value that is indexed. -/
def asTable (v : Value) : Lua ObjId :=
  match v with
  | .obj o => pure o
  | _ => luaError "attempt to index a function value"

/-- `o:key()` for a method `m` of `__target` with the given body, which a field of `o` can
replace by a function of a makefile. -/
def callMethod {α : Type} (E : Env) (m : Method) (key : String) (o : ObjId) (body : Lua α)
    (answer : Value → α) : Lua α := do
  let c ← Prog.gets id
  match c.attr o key with
  | .fn f =>
    if f = .method m then body
    else
      let v ← Prog.ofExcept (E.call f (.obj o) (c.seen o) c.files)
      pure (answer v)
  | v => luaError ("attempt to call a " ++ v.typeName ++ " value")

/-- The dependency names of a target, as its `deps` table has them. -/
def readDeps (o : ObjId) : Lua (Finset String) := do
  let c ← Prog.gets id
  match c.attr o "deps" with
  | .names s => pure s
  | _ => luaError "bad argument #1 to 'pairs' (table expected)"

/-- `__target:check_for_cycle(t,d,i)`; the first argument is the room left on the stack. -/
def checkForCycle (E : Env) : ℕ → ObjId → String → String → Lua Unit
  | 0,_,_,_ => luaError "stack overflow"
  | n+1,self,t,d => do
    let c ← Prog.gets id
    if c.attr self "name" = .str t then
      luaError ("Cyclical dependency on target '" ++ t ++ "' . '" ++ d ++ "' . '" ++ t ++ "'.")
    else
      let deps ← readDeps self
      let order ← enumerate E deps
      let _ ← forEach (γ := Empty) (fun k _ => do
        let v ← targetIndex k
        let dep ← asTable v
        callMethod E .checkForCycle "check_for_cycle" dep (checkForCycle E n dep t d) fun _ => ()
        pure (.next ())) order ()
      pure ()

/-- The first lines of `depends_on`: a target whose name is not defined registers itself. -/
def registerSelf (E : Env) (self : ObjId) : Lua Unit := do
  let c ← Prog.gets id
  let known ← targetDefined E (c.attr self "name")
  if known then pure ()
  else match c.attr self "name" with
    | .str name => targetNewindex name (.obj self)
    | _ => luaError "target name must be a string"

/-- `self.deps[name] = true` -/
def insertDep (self : ObjId) (name : String) : Lua Unit := do
  let deps ← readDeps self
  Prog.modify fun c => c.rawset self "deps" (.names (insert name deps))

/-- The entry is a target that is used directly as a dependency. Names are strings here: only
an unnamed target can read anything else, from a target that is registered as `name`. -/
def addDependency (E : Env) (self : ObjId) (v : Value) : Lua Unit := do
  let c ← Prog.gets id
  match v with
  | .obj o =>
    if (c.heap o).isTarget then
      match c.attr o "name",c.attr self "name" with
      | .str name,.str own =>
        if c.registry name ≠ .nil then
          let root ← asTable (c.registry name)
          callMethod E .checkForCycle "check_for_cycle" root
            (checkForCycle E E.stack root own name) fun _ => ()
        insertDep self name
      | _,_ => luaError "Dependency is unnamed."
    else luaError "Dependency is not a valid dependency target."
  | _ => luaError "Dependency is not a valid dependency target."

/-- One entry of the list that `depends_on` is given. A string names a target, and
`self:depends_on{target[v]}` is called for it. -/
def dependsOnEntry (E : Env) (self : ObjId) (v : Value) : Lua Unit := do
  match v with
  | .str name =>
    let dep ← targetIndex name
    registerSelf E self
    addDependency E self dep
  | _ => addDependency E self v

/-- The loop of `depends_on`; `ipairs` ends at the first `nil`. -/
def dependsOnEntries (E : Env) (self : ObjId) (list : List Value) : Lua Unit := do
  let _ ← forEach (γ := Empty) (fun v _ => do
    dependsOnEntry E self v
    pure (.next ())) (list.takeWhile fun v => v ≠ .nil) ()
  pure ()

/-- `__target:depends_on(deps_list)` -/
def dependsOn (E : Env) (self : ObjId) (list : List Value) : Lua Unit := do
  registerSelf E self
  dependsOnEntries E self list

/-- `phony_target(name)`. Its test asks for the global variable `dir`, which is never set. -/
def phonyTarget (E : Env) (name : String) : Lua Value := do
  let known ← targetDefined E .nil
  if known then
    let v ← targetIndex name
    let _ ← asTable v
    luaError "can't redefine non-phony target to be a phony target"
  else
    let o ← newTarget (some phonyClass) noFields
    targetNewindex name (.obj o)
    targetIndex name

/-- `dir_target(dir)` -/
def dirTarget (E : Env) (dir : String) : Lua Value := do
  let known ← targetDefined E (.str dir)
  if known then
    let v ← targetIndex dir
    let o ← asTable v
    let c ← Prog.gets id
    if dirClass ∈ o::(c.heap o).chain then targetIndex dir
    else luaError "can't redefine non-directory target to be a directory target"
  else
    let o ← newTarget (some dirClass) noFields
    targetNewindex dir (.obj o)
    targetIndex dir

end Presto
