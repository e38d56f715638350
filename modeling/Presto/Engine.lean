import Presto.Target

/-! Building: `bring_up_to_date` with its recursion over dependencies, the jobs with their
dispatcher, and the main loop `update_goals`. -/
namespace Presto
open Program

/-- What can be observed of a run. `failed` is a call of `bring_up_to_date` that raised, as
its `pcall` sees it, and `marked` a status that has become `error`. -/
inductive Event
  | start (o : ObjId) (id : ℕ)
  | resuming (id : ℕ)
  | processed (id : ℕ)
  | failed (o : ObjId)
  | marked (o : ObjId)
  | wait (handles : List Value)
  | printed (v : Value)
  deriving DecidableEq

abbrev World := Traced Core Event

abbrev Engine (α : Type) := Prog World Value α

def quietly {α : Type} (m : Lua α) : Engine α := Prog.traced m

def core : Engine Core := Prog.gets Traced.now

def raiseError {α : Type} (msg : String) : Engine α := quietly (luaError msg)

def setField (o : ObjId) (key : String) (v : Value) : Engine Unit :=
  quietly (Prog.modify fun c => c.rawset o key v)

def setStatus (o : ObjId) (s : Status) : Engine Unit := setField o "status" s.toValue

section
variable {α β : Type} (Q : Outcome Value β → World → Prop) (w : World)

@[simp] theorem wp_quietly (m : Lua β) :
    wp (quietly m) Q w ↔ wp m (fun o c => Q o { w with now := c }) w.now := Iff.rfl

@[simp] theorem wp_raiseError (msg : String) :
    wp (raiseError msg) Q w ↔ Q (.raise (.str msg)) w := Iff.rfl

@[simp] theorem run_raiseError (msg : String) :
    (raiseError msg : Engine α) w = (.raise (.str msg),w) := rfl

theorem wp_bind_core (f : Core → Engine β) : wp (core >>= f) Q w ↔ wp (f w.now) Q w := Iff.rfl

theorem wp_bind_setField (o : ObjId) (key : String) (v : Value) (f : Unit → Engine β) :
    wp (setField o key v >>= f) Q w ↔
      wp (f ()) Q { w with now := w.now.rawset o key v } := Iff.rfl

theorem wp_bind_emit (e : Event) (f : Unit → Engine β) :
    wp (Prog.emit e >>= f) Q w ↔ wp (f ()) Q { w with trace := (e,w.now)::w.trace } := Iff.rfl

theorem wp_bind_modify_quietly (g : Core → Core) (f : Unit → Engine β) :
    wp (quietly (Prog.modify g) >>= f) Q w ↔ wp (f ()) Q { w with now := g w.now } := Iff.rfl

end

def markError (o : ObjId) : Engine Unit := do
  setStatus o .error
  Prog.emit (.marked o)

/-- `make.message`, `make.error`, `make.warning` and `make.success`, which print one line. -/
def message (v : Value) : Engine Unit :=
  match v with
  | .str _ | .num _ => Prog.emit (.printed v)
  | _ => raiseError ("bad argument #1 (string expected, got " ++ v.typeName ++ ")")

/-- `if v then make.error(v) end` -/
def messageIf (v : Value) : Engine Unit := if v.truthy then message v else pure ()

/-- A value between `..` and `..`. -/
def concatText (v : Value) : Engine String :=
  match v with
  | .str s => pure s
  | .num i => pure (toString i)
  | _ => raiseError ("attempt to concatenate a " ++ v.typeName ++ " value")

def lessThan (a b : Value) : Engine Bool :=
  match a,b with
  | .num i,.num j => pure (decide (i < j))
  | .str s,.str t => pure (decide (s < t))
  | _,_ => raiseError ("attempt to compare " ++ a.typeName ++ " with " ++ b.typeName)

/-- `target[v]` for a key that need not be a string. -/
def indexValue (v : Value) : Lua Value :=
  match v with
  | .str key => targetIndex key
  | .num _ => do
    let o ← newTarget none (Function.update noFields "name" v)
    pure (.obj o)
  | _ => luaError ("bad argument #1 to 'match' (string expected, got " ++ v.typeName ++ ")")

section Jobs
variable (E : Env)

/-- One `coroutine.resume` of the command `f` of a target with the name `name`: resume number `n`
of the job `i`. -/
def resumeCommand (f : Fn) (name : Value) (i n : ℕ) : Lua Signal := do
  let c ← Prog.gets id
  match f with
  | .nilCommand => pure .finished
  | .dirCommand =>
    match name with
    | .str path =>
      if c.files.isDir path then pure .finished
      else match E.md path c.files with
        | some files => do
          Prog.modify fun c' => { c' with files := files }
          pure .finished
        -- the wide string is printed as a narrow one, up to its first NUL
        | none => pure (.raised (.str ("error creating directory '" ++ String.ofList (path.toList.take 1) ++ "'")))
    | _ => pure (.raised (.str ("bad argument #1 to 'is_dir' (string expected, got " ++ name.typeName ++ ")")))
  | _ =>
    let r := E.resume f name i n
    Prog.modify fun c' => { c' with
      files := r.effect c'.files
      deleteOnError := c'.deleteOnError ∪ r.unlink }
    pure r.signal

/-- Resume number `n` of the command comes back with a yield. -/
def Fn.yields (f : Fn) (name : Value) (i n : ℕ) : Bool :=
  match f with
  | .nilCommand | .dirCommand => false
  | _ =>
    match (E.resume f name i n).signal with
    | .yielded _ => true
    | _ => false

/-- `coroutine.status(job.co) == "suspended"`: the last resume came back with a yield. -/
def Job.suspended (i : ℕ) (j : Job) : Bool := j.command.yields E j.target i (j.resumed-1)

def Core.insertJob (c : Core) (i : ℕ) (j : Job) : Core :=
  { c with running := c.running.insert i j, count := c.count+1 }

def Core.removeJob (c : Core) (i : ℕ) : Core :=
  { c with running := c.running.erase i, count := c.count-1 }

def Core.yieldJob (c : Core) (i : ℕ) (j : Job) (handle : Value) : Core :=
  { c with running := c.running.insert i { j with resumed := j.resumed+1, handle := handle } }

/-- The status of a target whose job has come back for the first time. -/
def Signal.status : Signal → Status
  | .yielded _ => .running
  | .finished => .updated
  | .raised _ => .error

/-- What `make.jobs.start` records of the first resume of job `i`. -/
def Core.recordStart (c : Core) (self : ObjId) (i : ℕ) (j : Job) (signal : Signal) : Core :=
  match signal with
  | .raised v => (c.rawset self "status" signal.status.toValue).rawset self "errmsg" v
  | .yielded v => (c.insertJob i { j with handle := v }).rawset self "status" signal.status.toValue
  | .finished => c.rawset self "status" signal.status.toValue

def recordFirst (self : ObjId) (i : ℕ) (j : Job) (signal : Signal) : Engine Unit := do
  quietly (Prog.modify fun c => c.recordStart self i j signal)
  if signal.status = .error then Prog.emit (.marked self) else pure ()

def startJob (self : ObjId) (i : ℕ) (f : Fn) (name : Value) : Engine Value := do
  Prog.emit (.resuming i)
  let signal ← quietly (resumeCommand E f name i 0)
  recordFirst self i ⟨f,name,1,.nil⟩ signal
  Prog.emit (.processed i)
  let c ← core
  pure (c.attr self "status")

def Core.nextJob (c : Core) : Core := { c with pos := c.pos+1 }

/-- `make.jobs.start(target)` -/
def jobsStart (self : ObjId) : Engine Value := do
  quietly (Prog.modify Core.nextJob)
  let c ← core
  Prog.emit (.start self c.pos)
  match c.attr self "command" with
  | .fn f =>
    if c.attr self "name" = .nil then raiseError "table index is nil"
    else startJob E self c.pos f (c.attr self "name")
  | v => raiseError ("bad argument #1 to 'create' (function expected, got " ++ v.typeName ++ ")")

/-- The status of the target of a job that has come to its end. -/
def finishTarget (name : Value) (err : Option Value) : Engine Unit := do
  let v ← quietly (indexValue name)
  let o ← quietly (asTable v)
  setStatus o .updated
  match err with
  | none => pure ()
  | some e =>
    let v ← quietly (indexValue name)
    let o ← quietly (asTable v)
    setStatus o .error
    let v ← quietly (indexValue name)
    let p ← quietly (asTable v)
    setField p "errmsg" e
    Prog.emit (.marked o)

/-- `make.proc.wait(handles)`; every handle must come from `make.proc.spawn`. -/
def procWait (handles : List Value) : Engine Unit :=
  if handles.all fun v => match v with
    | .proc _ => true
    | _ => false
  then Prog.emit (.wait handles)
  else raiseError "bad argument #1 to 'wait' (process expected)"

/-- `coroutine.resume(job.co)` -/
def resumeJob (i : ℕ) (j : Job) : Engine Signal :=
  if j.suspended E i then quietly (resumeCommand E j.command j.target i j.resumed)
  else pure (.raised (.str "cannot resume dead coroutine"))

def finishJob (i : ℕ) (j : Job) (err : Option Value) : Engine Unit := do
  quietly (Prog.modify fun c => c.removeJob i)
  finishTarget j.target err
  Prog.emit (.processed i)

def reportJob (j : Job) (v : Value) : Engine Unit := do
  let name ← concatText j.target
  message (.str ("Error updating target '" ++ name ++ "'."))
  messageIf v

/-- One job in the loop of `make.jobs.dispatch`, with the handles that `waiting` has so far. A
job that an earlier step removed is not visited. -/
def dispatchJob (exit : Engine Unit) (i : ℕ) (waiting : List Value) :
    Engine (Step (List Value) Empty) := do
  let c ← core
  match c.running.lookup i with
  | none => pure (.next waiting)
  | some j =>
    Prog.emit (.resuming i)
    match ← resumeJob E i j with
    | .finished =>
      finishJob i j none
      pure (.next waiting)
    | .raised v =>
      finishJob i j (some v)
      reportJob j v
      exit
      pure (.next waiting)
    | .yielded v =>
      quietly (Prog.modify fun c' => c'.yieldJob i j (if v = .nil then j.handle else v))
      Prog.emit (.processed i)
      pure (.next (if v = .nil then waiting else waiting++[v]))

/-- `pairs(make.jobs.running)` -/
def enumerateJobs : Lua (List ℕ) := do
  let c ← Prog.gets id
  Prog.modify fun c' => { c' with tick := c'.tick+1 }
  pure (E.jobs.order c.tick c.running.keys)

mutual

/-- `make.jobs.dispatch()`; the first argument bounds the passes. -/
def dispatch : ℕ → Engine Unit
  | 0 => Prog.diverge
  | n+1 => do
    let c ← core
    let jobCount := c.count
    let order ← quietly (enumerateJobs E)
    match ← forEach (dispatchJob E (makeExit n)) order [] with
    | .left e => nomatch e
    | .fell waiting =>
      let c ← core
      if jobCount ≠ c.count ∧ c.count < E.slots then pure ()
      else if jobCount = 0 then pure ()
      else
        procWait waiting
        dispatch n

/-- `while make.jobs.count > 0 do pcall(make.jobs.dispatch) end` -/
def drain : ℕ → Engine Unit
  | 0 => Prog.diverge
  | n+1 => do
    let c ← core
    if c.count > 0 then
      let _ ← Prog.attempt (dispatch n)
      drain n
    else pure ()

/-- `make.exit()` -/
def makeExit : ℕ → Engine Unit
  | 0 => Prog.diverge
  | n+1 => do
    let c ← core
    if E.flags.keepGoing then quietly (Prog.modify fun c => { c with failure := true })
    else if c.count > 0 then
      message (.str "Waiting for other jobs to finish...")
      drain n
      message (.str "One or more targets not remade due to errors.")
      raiseError "Stop."
    else raiseError "Stop."

end
end Jobs

section BringUp
variable (E : Env)

/-- `if not(self.deps_newer) then self.deps_newer = make.util.target_list:new{} end` -/
def ensureDepsNewer (self : ObjId) : Engine Unit := do
  let c ← core
  if (c.attr self "deps_newer").truthy then pure () else setField self "deps_newer" (.names ∅)

/-- `self.deps_newer[name] = true`. The list may be that of a class, or a target that is
registered as `deps_newer`. -/
def markNewer (self : ObjId) (name : String) : Engine Unit := do
  let c ← core
  match c.attr self "deps_newer" with
  | .names s => setField ((c.holder self "deps_newer").getD self) "deps_newer" (.names (insert name s))
  | .obj d => setField d name (.bool true)
  | .proxy => quietly (targetNewindex name (.bool true))
  | .proc _ | .table _ => pure ()
  | v => raiseError ("attempt to index field 'deps_newer' (a " ++ v.typeName ++ " value)")

def prune (self : ObjId) (name : String) : Engine Unit := do
  let deps ← quietly (readDeps self)
  setField self "deps" (.names (deps.erase name))

/-- `o.bring_up_to_date(o)`, where a field of `o` may replace the method. -/
def callBring (bring : ObjId → Engine Value) (o : ObjId) : Engine Value := do
  let c ← core
  match c.attr o "bring_up_to_date" with
  | .fn f =>
    if f = .method .bringUpToDate then bring o
    else quietly (Prog.ofExcept (E.call f (.obj o) (c.seen o) c.files))
  | v => raiseError ("attempt to call a " ++ v.typeName ++ " value")

/-- `pcall(o.bring_up_to_date,o)` -/
def visit (bring : ObjId → Engine Value) (o : ObjId) : Engine (Except Value Value) := do
  match ← Prog.attempt (callBring E bring o) with
  | .ok v => pure (.ok v)
  | .error e =>
    Prog.emit (.failed o)
    pure (.error e)

/-- The rule of a protected call: an error is noted in the trace and becomes a value. -/
theorem wp_visit {bring : ObjId → Engine Value} {o : ObjId} {w : World}
    {R : Outcome Value Value → World → Prop} {Q : Outcome Value (Except Value Value) → World → Prop}
    (hcall : wp (callBring E bring o) R w) (hret : ∀ v w', R (.ret v) w' → Q (.ret (.ok v)) w')
    (hraise : ∀ e w', R (.raise e) w' →
      Q (.ret (.error e)) { w' with trace := (.failed o,w'.now)::w'.trace })
    (hdiv : ∀ w', R .diverge w' → Q .diverge w') : wp (visit E bring o) Q w := by
  unfold visit
  rw [wp_bind,wp_attempt]
  apply wp_mono hcall
  rintro (v | e | _) w' hw
  · exact hret v w' hw
  · exact hraise e w' hw
  · exact hdiv w' hw

/-- The local variables of `bring_up_to_date` while it goes through the dependencies. -/
structure Pass where
  mustBuild : Bool
  mustWait : Bool

/-- A dependency that was not updated: the target is built if it is older. -/
def compareDep (self dep : ObjId) (name : String) (b : Pass) : Engine (Step Pass Value) := do
  let selfTimestamp ← quietly (readTimestamp E self)
  let depTimestamp ← quietly (readTimestamp E dep)
  if ← lessThan selfTimestamp depTimestamp then
    markNewer self name
    pure (.next { b with mustBuild := true })
  else pure (.next b)

/-- A dependency that failed: without `-k` the target fails at once, otherwise the dependency
is removed so that it is not tried again. -/
def failDep (self dep : ObjId) (name : String) (b : Pass) : Engine (Step Pass Value) := do
  let c ← core
  let depName ← concatText (c.attr dep "name")
  message (.str ("Error updating target '" ++ depName ++ "':"))
  messageIf (c.attr dep "errmsg")
  if E.flags.keepGoing then
    prune self name
    setField self "dep_status" Status.error.toValue
    pure (.next b)
  else
    markError self
    let c ← core
    pure (.leave (c.attr self "status"))

def depStatus : Except Value Value → Value
  | .ok s => s
  | .error _ => Status.error.toValue

/-- What the status of a dependency means for the target. -/
def useDep (self dep : ObjId) (name : String) (b : Pass) (status : Value) :
    Engine (Step Pass Value) := do
  if status = Status.updated.toValue then
    markNewer self name
    pure (.next { b with mustBuild := true })
  else if status = Status.none.toValue then compareDep E self dep name b
  else if status = Status.error.toValue then failDep E self dep name b
  else if status = Status.running.toValue then
    let c ← core
    if c.count ≥ E.slots then pure (.stop { b with mustWait := true })
    else pure (.next { b with mustWait := true })
  else
    let text ← concatText status
    raiseError ("Unknown make.status value '" ++ text ++ "'.")

def depStep (bring : ObjId → Engine Value) (self : ObjId) (name : String) (b : Pass) :
    Engine (Step Pass Value) := do
  let v ← quietly (targetIndex name)
  let dep ← quietly (asTable v)
  let result ← visit E bring dep
  useDep E self dep name b (depStatus result)

def missing (self : ObjId) : Engine Bool :=
  if E.flags.alwaysMake then pure true
  else do
    let v ← quietly (readExists E self)
    pure !v.truthy

/-- There is no command for a target that must be built. -/
def noRule (self : ObjId) : Engine Value := do
  markError self
  let c ← core
  let name ← concatText (c.attr self "name")
  setField self "errmsg" (.str ("No rule to make target '" ++ name ++ "'"))
  raiseError ("No rule to make target '" ++ name ++ "'")

/-- `not(make.flags.always_make) or not(self.exists)` -/
def unbuildable (self : ObjId) : Engine Bool :=
  if E.flags.alwaysMake then do
    let v ← quietly (readExists E self)
    pure !v.truthy
  else pure true

/-- What follows the loop over the dependencies. With `-q` a field of the function
`phony_target` is asked for. -/
def finishTargetUpdate (self : ObjId) (b : Pass) : Engine Value := do
  let c ← core
  if b.mustWait then pure Status.running.toValue
  else if c.attr self "dep_status" = Status.error.toValue then
    markError self
    let c ← core
    pure (c.attr self "status")
  else if b.mustBuild then
    if E.flags.question then
      raiseError "attempt to index global 'phony_target' (a function value)"
    else if (c.attr self "command").truthy then jobsStart E self
    else if ← unbuildable E self then noRule self
    else pure Status.none.toValue
  else pure Status.none.toValue

def Core.settled (c : Core) (o : ObjId) : Prop :=
  c.attr o "status" = Status.updated.toValue ∨ c.attr o "status" = Status.running.toValue ∨
    c.attr o "status" = Status.error.toValue

instance (c : Core) (o : ObjId) : Decidable (c.settled o) := by
  unfold Core.settled
  infer_instance

/-- `__target:bring_up_to_date()`; the first argument is the room left on the stack. -/
def bringUpToDate : ℕ → ObjId → Engine Value
  | 0,_ => raiseError "stack overflow"
  | n+1,self => do
    let c ← core
    if c.settled self then pure (c.attr self "status")
    else
      ensureDepsNewer self
      let mustBuild ← missing E self
      let deps ← quietly (readDeps self)
      let order ← quietly (enumerate E deps)
      match ← forEach (depStep E (bringUpToDate n) self) order ⟨mustBuild,false⟩ with
      | .left status => pure status
      | .fell b => finishTargetUpdate E self b

/-- What a call of `bring_up_to_date` does before it goes through the dependencies. -/
def visitStart (self : ObjId) : Engine (Bool × List String) := do
  ensureDepsNewer self
  let mustBuild ← missing E self
  let deps ← quietly (readDeps self)
  let order ← quietly (enumerate E deps)
  pure (mustBuild,order)

/-- The rule of one call: `I` is the invariant of the loop over the dependencies, `F` holds
behind it. -/
theorem wp_bringUpToDate {n : ℕ} {self : ObjId} {w : World} {Q : Outcome Value Value → World → Prop}
    (I : List String → Pass → World → Prop) (F : Pass → World → Prop)
    (hsettled : w.now.settled self → Q (.ret (w.now.attr self "status")) w)
    (hstart : ¬w.now.settled self → wp (visitStart E self) (seqPost (fun p => I p.2 ⟨p.1,false⟩) Q) w)
    (hstep : ∀ name l b w', I (name::l) b w' →
      wp (depStep E (bringUpToDate E n) self name b) (stepPost (I l) (exitPost F Q)) w')
    (hend : ∀ b w', I [] b w' → F b w')
    (hfinish : ∀ b w', F b w' → wp (finishTargetUpdate E self b) Q w') :
    wp (bringUpToDate E (n+1) self) Q w := by
  unfold bringUpToDate
  rw [wp_bind_core,wp_ite]
  split_ifs with hs
  · exact hsettled hs
  · have hrun : wp (visitStart E self >>= fun p => forEach (depStep E (bringUpToDate E n) self) p.2 ⟨p.1,false⟩ >>=
        fun x => match x with
          | .left status => pure status
          | .fell b => finishTargetUpdate E self b) Q w := by
      apply wp_bind_of (hstart hs)
      · rintro p w' h
        apply wp_bind_forEach I F hstep hend _ _ _ _ _ h
        · exact hfinish
        · exact fun _ _ hs => hs
      · exact fun _ _ hs => hs
      · exact fun _ hs => hs
    simp only [visitStart,prog_bind_assoc] at hrun
    exact hrun

end BringUp

section Goals
variable (E : Env)

def failureLine (name : String) : Engine Unit :=
  if E.flags.question then pure () else message (.str ("Error updating goal '" ++ name ++ "'."))

def reportFailure (goal : ObjId) (name : String) : Engine Unit := do
  failureLine E name
  let c ← core
  messageIf (c.attr goal "errmsg")

/-- A goal is removed from the list unless it is still running. -/
def reportGoal (goal : ObjId) (name : String) (status : Value) : Engine Unit :=
  let remove := quietly (Prog.modify fun c => { c with goals := c.goals.erase name })
  if status = Status.running.toValue then pure ()
  else if status = Status.error.toValue then do
    reportFailure E goal name
    makeExit E E.fuel
    remove
  else if status = Status.none.toValue then do
    message (.str ("nothing to be done for '" ++ name ++ "'."))
    remove
  else do
    message (.str ("target '" ++ name ++ "' is up to date"))
    remove

/-- The status of a goal after the call of `bring_up_to_date`. -/
def goalStatus (goal : ObjId) (result : Except Value Value) : Engine Value :=
  match result with
  | .ok s => pure s
  | .error e => do
    setField goal "errmsg" e
    pure Status.error.toValue

/-- One goal in the main loop; the number counts the goals. -/
def goalStep (name : String) (goalCount : ℕ) : Engine (Step ℕ Empty) := do
  let v ← quietly (targetIndex name)
  let goal ← quietly (asTable v)
  let result ← visit E (bringUpToDate E E.stack) goal
  let status ← goalStatus goal result
  reportGoal E goal name status
  let c ← core
  if c.count ≥ E.slots then pure (.stop (goalCount+1)) else pure (.next (goalCount+1))

/-- `if not next(make.goals) then ... end` -/
def defaultGoals : Engine Unit := do
  let c ← core
  if c.goals ≠ ∅ then pure ()
  else if c.registry "__default" = .nil then raiseError "No targets.  Stop."
  else
    let o ← quietly (asTable (c.registry "__default"))
    match c.attr o "name" with
    | .str name => quietly (Prog.modify fun c' => { c' with goals := {name} })
    | _ => raiseError "table index is nil"

/-- The running jobs are resumed if no job was started or all slots are full. -/
def dispatchRunning (jobCount : ℤ) : Engine Unit := do
  let c ← core
  if c.count > 0 ∧ (c.count = jobCount ∨ c.count ≥ E.slots) then dispatch E E.fuel else pure ()

/-- One pass of the main loop; it is the last one if there was no goal. -/
def goalPass : Engine Bool := do
  let c ← core
  let order ← quietly (enumerate E c.goals)
  match ← forEach (goalStep E) order 0 with
  | .left e => nomatch e
  | .fell goalCount =>
    dispatchRunning E c.count
    pure (decide (goalCount ≠ 0))

/-- `make.update_goals_p()` -/
def updateGoalsP : Engine Unit := do
  defaultGoals
  repeatWhile (goalPass E) E.fuel
  let c ← core
  if c.failure then
    message (.str "One or more targets not remade due to errors.")
    raiseError "Stop."
  else pure ()

/-- `string.find(msg,"Stop.")`, where the dot stands for any character. -/
def findsStop (msg : String) : Bool :=
  msg.toList.tails.any fun t => "Stop".toList.isPrefixOf t && decide (4 < t.length)

/-- `make.update_goals()`. There is no function `make.file.exist`, so nothing is unlinked. -/
def updateGoals : Engine Unit := do
  quietly (Prog.modify fun c => { c with deleteOnError := ∅ })
  match ← Prog.attempt (updateGoalsP E) with
  | .ok _ => pure ()
  | .error e =>
    let c ← core
    if c.deleteOnError ≠ ∅ then raiseError "attempt to call field 'exist' (a nil value)"
    else match e with
      | .str msg => if findsStop msg then quietly (Prog.raise e) else raiseError "Signal.  Stop."
      | .num _ => raiseError "Signal.  Stop."
      | v => raiseError ("bad argument #1 to 'find' (string expected, got " ++ v.typeName ++ ")")

end Goals
end Presto
