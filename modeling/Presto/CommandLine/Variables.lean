import Presto.CommandLine.Passes
import Presto.Program.NormalKeys
import Presto.Environment

/-! The variables in `make.env`: the environment of the process, the assignments of both passes
over the command line, and the reads and writes of scripts. -/
namespace Presto
open Program

/-- What is done to `make.env`: it is read, it is written, and mkinit.lua sets its metatable. -/
inductive EnvOp
  | read (key : Arg)
  | write (key : Arg) (value : Option Arg)
  | install
  deriving DecidableEq

/-- `make.env[key]` -/
def Shell.getEnv (s : Shell) (key : Arg) : Option Arg :=
  match s.settings.env key with
  | none => if s.metatable then s.settings.env (upper key) else none
  | some v => some v

def Shell.runOp (s : Shell) : EnvOp → Shell
  | .read _ => s
  | .write key value => s.setEnv key value
  | .install => { s with metatable := true }

def Shell.runOps (s : Shell) (ops : List EnvOp) : Shell := ops.foldl Shell.runOp s

/-- What an operation writes to the variable `k`, whatever the case of its letters. -/
def EnvOp.writeTo (k : Arg) : EnvOp → Option (Option Arg)
  | .write key value => if upper key = upper k then some value else none
  | _ => none

/-- A variable of the environment block; the entries of drives have no name before the first `=`. -/
def entryOp (e : Arg × Arg) : List EnvOp := if e.1 = [] then [] else [.write (upper e.1) (some e.2)]

def assignOp (a : Arg) : EnvOp := .write (assignment a).1 (assignment a).2

/-- Everything that is done to `make.env` while the command line is read. -/
def startOps (entries : List (Arg × Arg)) (args : List Arg) (site init : List EnvOp) : List EnvOp :=
  entries.flatMap entryOp++args.map assignOp++EnvOp.install::(site++init++args.map assignOp)

/-- No two keys of the table differ only in case. -/
def OneSpelling (t : Arg → Option Arg) : Prop :=
  ∀ a b, t a ≠ none → t b ≠ none → upper a = upper b → a = b

/-- After `ops`: no variable has two keys, and a script reads what was last written to the variable
in any spelling. -/
def OneMap (s : Shell) (ops : List EnvOp) : Prop := OneSpelling s.settings.env ∧
  (s.metatable = true → ∀ key, s.getEnv key = (lastWrite (EnvOp.writeTo key) ops).getD none)

/-- Code that succeeds and does `ops` to `make.env`. -/
def Does (S : System) (code : Code) (ops : List EnvOp) : Prop := ∀ s, (S.run code s).2 = 0 ∧
  (S.run code s).1.settings.env = (s.runOps ops).settings.env ∧
  (S.run code s).1.metatable = (s.runOps ops).metatable

/-- Before the metatable is there only keys in upper case are written. -/
def Guarded : Bool → List EnvOp → Prop
  | _,[] => True
  | m,.read _::l => Guarded m l
  | m,.write key _::l => (m = true ∨ upper key = key) ∧ Guarded m l
  | _,.install::l => Guarded true l

section Guards
variable {m : Bool} {l l' : List EnvOp}

theorem guarded_true (l : List EnvOp) : Guarded true l := by
  induction l with
  | nil => trivial
  | cons op l ih =>
    cases op with
    | read key => exact ih
    | write key value => exact ⟨.inl rfl,ih⟩
    | install => exact ih

theorem Guarded.left (h : Guarded m (l++l')) : Guarded m l := by
  induction l generalizing m with
  | nil => trivial
  | cons op l ih =>
    cases op with
    | read key => exact ih (m := m) h
    | write key value => exact ⟨h.1,ih h.2⟩
    | install => exact ih (m := true) h

/-- The writers in C put the keys into upper case themselves. -/
theorem guarded_writes (hl : ∀ op ∈ l, ∃ key value, op = .write key value ∧ upper key = key)
    (h : Guarded m l') : Guarded m (l++l') := by
  induction l with
  | nil => exact h
  | cons op l ih =>
    obtain ⟨key,value,rfl,hkey⟩ := hl op List.mem_cons_self
    exact ⟨.inr hkey,ih fun op hop => hl op (List.mem_cons_of_mem _ hop)⟩

theorem guarded_startOps (entries : List (Arg × Arg)) (args : List Arg) (site init later : List EnvOp) :
    Guarded false (startOps entries args site init++later) := by
  unfold startOps
  rw [List.append_assoc]
  apply guarded_writes
  · intro op hop
    rcases List.mem_append.mp hop with hop | hop
    · obtain ⟨e,_,he⟩ := List.mem_flatMap.mp hop
      unfold entryOp at he
      split_ifs at he
      · cases he
      · exact ⟨_,_,List.mem_singleton.mp he,upper_upper _⟩
    · obtain ⟨a,_,rfl⟩ := List.mem_map.mp hop
      exact ⟨_,_,rfl,upper_upper _⟩
  · exact guarded_true _

end Guards

section Steps
variable {s : Shell} {key : Arg}

theorem env_setEnv (h : Normal upper s.settings.env) (hkey : s.metatable = true ∨ upper key = key)
    (value : Option Arg) :
    (s.setEnv key value).settings.env = Function.update s.settings.env (upper key) value := by
  rw [← h.store_eq]
  unfold Shell.setEnv store
  rcases hkey with hm | hkey
  · simp [hm]
  · simp [hkey]

theorem getEnv_eq (h : Normal upper s.settings.env) (hm : s.metatable = true) (key : Arg) :
    s.getEnv key = s.settings.env (upper key) := by
  rw [← h.fetch_eq]
  unfold Shell.getEnv fetch
  rw [if_pos hm]
  cases s.settings.env key <;> rfl

/-- What one operation does to the variable `k`. -/
theorem runOp_normal {op : EnvOp} {l : List EnvOp} (h : Normal upper s.settings.env) (hg : Guarded s.metatable (op::l))
    (k : Arg) : (Normal upper (s.runOp op).settings.env ∧ Guarded (s.runOp op).metatable l) ∧
      (s.runOp op).settings.env (upper k) = (op.writeTo k).getD (s.settings.env (upper k)) := by
  cases op with
  | read key => exact ⟨⟨h,hg⟩,rfl⟩
  | write key value =>
    have henv := env_setEnv h hg.1 value
    refine ⟨⟨?_,hg.2⟩,?_⟩
    · change Normal upper (s.setEnv key value).settings.env
      rw [henv]
      exact h.update (upper_upper key) value
    · change (s.setEnv key value).settings.env (upper k) = _
      rw [henv]
      unfold EnvOp.writeTo
      by_cases hk : upper key = upper k
      · simp [hk]
      · simp [hk,Function.update_of_ne (Ne.symm hk)]
  | install => exact ⟨⟨h,hg⟩,rfl⟩

/-- A run of operations keeps the keys in upper case, and each variable has the value last written. -/
theorem runOps_normal {ops : List EnvOp} (h : Normal upper s.settings.env) (hg : Guarded s.metatable ops) (k : Arg) :
    Normal upper (s.runOps ops).settings.env ∧
      (s.runOps ops).settings.env (upper k) = (lastWrite (EnvOp.writeTo k) ops).getD (s.settings.env (upper k)) := by
  have hrun := foldl_lastWrite_of Shell.runOp (fun s => s.settings.env (upper k)) (EnvOp.writeTo k)
    (fun l s => Normal upper s.settings.env ∧ Guarded s.metatable l)
    (fun op l s hs => runOp_normal hs.1 hs.2 k) ops s ⟨h,hg⟩
  exact ⟨hrun.1.1,hrun.2⟩

end Steps

/-- The same variables, written and read in the same way. -/
def SameEnv (s t : Shell) : Prop := s.settings.env = t.settings.env ∧ s.metatable = t.metatable

section Same
variable {s t u : Shell}

theorem SameEnv.runOp (h : SameEnv s t) (op : EnvOp) : SameEnv (s.runOp op) (t.runOp op) := by
  cases op with
  | read key => exact h
  | write key value =>
    refine ⟨?_,h.2⟩
    change (s.setEnv key value).settings.env = (t.setEnv key value).settings.env
    unfold Shell.setEnv
    rw [h.1,h.2]
  | install => exact ⟨h.1,rfl⟩

theorem SameEnv.runOps (h : SameEnv s t) (ops : List EnvOp) : SameEnv (s.runOps ops) (t.runOps ops) := by
  induction ops generalizing s t with
  | nil => exact h
  | cons op ops ih => exact ih (h.runOp op)

theorem SameEnv.trans (h : SameEnv s t) (h' : SameEnv t u) : SameEnv s u := ⟨h.1.trans h'.1,h.2.trans h'.2⟩

theorem SameEnv.getEnv_eq (h : SameEnv s t) (key : Arg) : s.getEnv key = t.getEnv key := by
  unfold Shell.getEnv
  rw [h.1,h.2]

theorem runOps_append (s : Shell) (l l' : List EnvOp) : s.runOps (l++l') = (s.runOps l).runOps l' :=
  List.foldl_append

end Same

/-- The loop of `luaopen_make` writes to a table that has no metatable. -/
theorem runOps_entries {entries : List (Arg × Arg)} (hentries : ∀ e ∈ entries, SoundEntry e)
    (t : Arg → Option Arg) (cwd : Arg) : (Shell.start t cwd).runOps (entries.flatMap entryOp) =
      Shell.start (entries.foldl (fun t e => setVariable t (upper e.1) e.2) t) cwd := by
  induction entries generalizing t with
  | nil => rfl
  | cons e l ih =>
    rw [List.flatMap_cons,runOps_append,List.foldl_cons,← ih fun x hx => hentries x (List.mem_cons_of_mem e hx)]
    congr 1
    rw [setVariable_upper (hentries e List.mem_cons_self).name_nul]
    unfold entryOp
    split_ifs
    · rfl
    · rfl

section Passes
variable {S : System} {args : List Arg}

theorem runItems_assign (execute : Bool) (hargs : ∀ a ∈ args, '=' ∈ a) (s : Shell) :
    runItems S execute (args.map Item.assign) s = (.ret .next,s.runOps (args.map assignOp)) := by
  induction args generalizing s with
  | nil => rfl
  | cons a l ih =>
    have hitem : runItem S execute (.assign a) s = (.ret .next,s.runOp (assignOp a)) := by
      have hp : parameter a s = (.ret (),s.setEnv (assignment a).1 (assignment a).2) := by
        unfold parameter
        rw [if_pos (hargs a List.mem_cons_self)]
        rfl
      exact run_bind_of_ret hp _
    rw [List.map_cons,runItems,run_bind_of_ret hitem]
    exact ih (fun b hb => hargs b (List.mem_cons_of_mem a hb)) _

/-- Parameters of the form `VAR=VALUE` are assignments. -/
theorem cutArgs_assign (hargs : ∀ a ∈ args, '=' ∈ a ∧ a.head? ≠ some '-') :
    cutArgs true args = args.map Item.assign := by
  induction args with
  | nil => rfl
  | cons a l ih =>
    obtain ⟨heq,hdash⟩ := hargs a List.mem_cons_self
    unfold cutArgs
    rw [if_neg fun h => hdash h.2,ih fun b hb => hargs b (List.mem_cons_of_mem a hb)]
    unfold parameterItem
    rw [if_pos heq]
    rfl

/-- A pass over assignments. -/
theorem parse_assign (execute : Bool) {argv : List Arg} (hargs : cutArgs true argv = args.map Item.assign) (s : Shell) :
    parseCommandline S execute argv s = (.ret (),s.runOps (args.map assignOp)) := by
  have hform : ∀ a ∈ args, '=' ∈ a := by
    intro a ha
    exact formed_cutArgs true argv (.assign a) (hargs ▸ List.mem_map_of_mem ha)
  unfold parseCommandline
  rw [parseArgs_eq,hargs,run_bind_of_ret (runItems_assign execute hform s)]
  rfl

theorem status_runOps (s : Shell) (ops : List EnvOp) : (s.runOps ops).status = s.status := by
  induction ops generalizing s with
  | nil => rfl
  | cons op ops ih =>
    refine (ih (s.runOp op)).trans ?_
    cases op <;> rfl

theorem run_runCode_does {code : Code} {ops : List EnvOp} (h : Does S code ops) (s : Shell) :
    ∃ s', runCode S code s = (.ret (),s') ∧ s'.status = 0 ∧ SameEnv s' (s.runOps ops) :=
  ⟨_,rfl,(h s).1,(h s).2⟩

/-- Both passes over assignments, with the code between them. -/
theorem pmain_assign {site init : List EnvOp} (hsite : Does S .site site) (hinit : Does S .init init)
    {argv : List Arg} (hargs : cutArgs true argv = args.map Item.assign) {s : Shell} (hs : s.status = 0) :
    ∃ s', pmain S argv s = (.ret (),s') ∧
      SameEnv s' (s.runOps (args.map assignOp++EnvOp.install::(site++init++args.map assignOp))) := by
  set s₁ := s.runOps (args.map assignOp)
  have hm : mkinit s₁ = (.ret (),{ s₁ with goals := some ∅, metatable := true }) := rfl
  obtain ⟨s₂,h₂,hs₂,he₂⟩ := run_runCode_does hsite { s₁ with goals := some ∅, metatable := true }
  obtain ⟨s₃,h₃,hs₃,he₃⟩ := run_runCode_does hinit s₂
  refine ⟨s₃.runOps (args.map assignOp),?_,?_⟩
  · have hzero : ¬(id s₁).status ≠ 0 := not_not.mpr ((status_runOps s _).trans hs)
    have hzero₂ : ¬(id s₂).status ≠ 0 := not_not.mpr hs₂
    have hzero₃ : ¬(id s₃).status ≠ 0 := not_not.mpr hs₃
    unfold pmain
    rw [run_bind_of_ret (parse_assign false hargs s),run_bind_gets,run_ite,if_neg hzero,run_bind_of_ret hm,
      run_bind_of_ret h₂,run_bind_gets,run_ite,if_neg hzero₂,run_bind_of_ret h₃,run_bind_gets,run_ite,
      if_neg hzero₃]
    exact parse_assign true hargs s₃
  · have hmid : SameEnv { s₁ with goals := some ∅, metatable := true } (s₁.runOp .install) := ⟨rfl,rfl⟩
    have hlast := (he₃.trans ((he₂.trans (hmid.runOps site)).runOps init)).runOps (args.map assignOp)
    rw [runOps_append]
    change SameEnv _ ((s₁.runOp .install).runOps (site++init++args.map assignOp))
    rwa [runOps_append,runOps_append]

end Passes

section Life
variable {ops : List EnvOp}

theorem metatable_runOps {s : Shell} (h : s.metatable = true) : (s.runOps ops).metatable = true := by
  induction ops generalizing s with
  | nil => exact h
  | cons op ops ih =>
    apply ih
    cases op
    · exact h
    · exact h
    · rfl

theorem oneMap_runOps (hg : Guarded false ops) (cwd : Arg) : OneMap ((Shell.start (fun _ => none) cwd).runOps ops) ops := by
  have hrun := runOps_normal (s := Shell.start (fun _ => none) cwd) normal_empty hg
  refine ⟨fun a b => (hrun []).1.unique,fun hm key => ?_⟩
  rw [getEnv_eq (hrun key).1 hm,(hrun key).2]
  rfl

theorem OneMap.same {s t : Shell} (h : OneMap t ops) (hsame : SameEnv s t) : OneMap s ops := by
  refine ⟨?_,fun hm key => ?_⟩
  · rw [hsame.1]
    exact h.1
  · rw [hsame.getEnv_eq]
    exact h.2 (hsame.2 ▸ hm) key

end Life

/-- `make.env` is one map, whatever the environment, the assignments and the scripts: at the end of
`pmain` with anything that scripts do `later`, and at each moment before it. -/
theorem env_one_map {S : System} {site init : List EnvOp} (hsite : Does S .site site) (hinit : Does S .init init)
    {entries : List (Arg × Arg)} (hentries : ∀ e ∈ entries, SoundEntry e) {argv args : List Arg}
    (hargs : cutArgs true argv = args.map Item.assign) (cwd : Arg) :
    ∃ env s, openEnv (blockOf entries) = some env ∧ pmain S argv (Shell.start env cwd) = (.ret (),s) ∧
      SameEnv s ((Shell.start (fun _ => none) cwd).runOps (startOps entries args site init)) ∧
      (∀ later, (s.runOps later).metatable = true ∧
        OneMap (s.runOps later) (startOps entries args site init++later)) ∧
      ∀ ops, ops <+: startOps entries args site init →
        OneMap ((Shell.start (fun _ => none) cwd).runOps ops) ops := by
  have hopen := readEnv_block hentries (fun _ => none) []
  rw [List.append_nil] at hopen
  obtain ⟨s,hrun,hsame⟩ := pmain_assign hsite hinit hargs
    (s := Shell.start (entries.foldl (fun t e => setVariable t (upper e.1) e.2) fun _ => none) cwd) rfl
  rw [← runOps_entries hentries,← runOps_append,← List.append_assoc] at hsame
  have hm : s.metatable = true := by
    rw [hsame.2,runOps_append]
    exact metatable_runOps (s := Shell.runOp _ .install) rfl
  refine ⟨_,s,hopen,hrun,hsame,fun later => ⟨metatable_runOps hm,?_⟩,fun ops hops => oneMap_runOps ?_ cwd⟩
  · have hlater := hsame.runOps later
    rw [← runOps_append] at hlater
    exact (oneMap_runOps (guarded_startOps entries args site init later) cwd).same hlater
  · obtain ⟨rest,hrest⟩ := hops
    have hg := guarded_startOps entries args site init []
    rw [List.append_nil,← hrest] at hg
    exact hg.left

/-- Code that only uses `make.env`. -/
def System.scripted (ops : Code → List EnvOp) : System where
  run code s := (s.runOps (ops code),0)
  chdir _ path := path

theorem does_scripted (ops : Code → List EnvOp) (code : Code) : Does (System.scripted ops) code (ops code) :=
  fun _ => ⟨rfl,rfl,rfl⟩

/-- The search path is overridden on the command line, and a site file writes another variable. -/
theorem env_one_map_path :
    let entries := [("Path".toList,"a".toList),([],"C:=C:\\b".toList)]
    let args := ["path=c".toList,"x=".toList]
    let site := [EnvOp.write "cc".toList (some "gcc".toList),.read "Cc".toList]
    let S := System.scripted fun code => if code = .site then site else []
    ∃ env s, openEnv (blockOf entries) = some env ∧ pmain S args (Shell.start env []) = (.ret (),s) ∧
      SameEnv s ((Shell.start (fun _ => none) []).runOps (startOps entries args site [])) ∧
      (∀ later, (s.runOps later).metatable = true ∧ OneMap (s.runOps later) (startOps entries args site []++later)) ∧
      ∀ ops, ops <+: startOps entries args site [] → OneMap ((Shell.start (fun _ => none) []).runOps ops) ops := by
  intro entries args site S
  apply env_one_map (does_scripted _ .site) (does_scripted _ .init)
  · intro e he
    rcases List.mem_cons.mp he with rfl | he
    · exact ⟨by decide,by decide,by decide,by decide,by decide⟩
    · obtain rfl := List.mem_singleton.mp he
      exact ⟨by decide,by decide,by decide,by decide,by decide⟩
  · exact cutArgs_assign (by decide)

/-- The last spelling does not matter. -/
example : (lastWrite (EnvOp.writeTo "Path".toList) (startOps [("Path".toList,"a".toList)] ["pATH=c".toList] []
    [.write "path".toList none,.read "PATH".toList])) = some (some "c".toList) := by decide

end Presto
