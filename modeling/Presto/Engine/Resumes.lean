import Presto.Engine.Events

/-! The resumes of jobs that the trace of a run tells of. -/
namespace Presto
open Program

/-- A resume of a job: what it runs with, how often it has been resumed before, and the state. -/
structure Resume where
  job : ℕ
  command : Fn
  name : Value
  number : ℕ
  state : Core

def Resume.run (E : Env) (r : Resume) : Outcome Value Signal × Core :=
  resumeCommand E r.command r.name r.job r.number r.state

/-- The files that the resume leaves behind, if the command finishes. -/
def Resume.finish (E : Env) (r : Resume) : Option FileSystem :=
  match r.run E with
  | (.ret .finished,c) => some c.files
  | _ => none

/-- The resume of a job that is running. -/
def Core.runningResume (c : Core) (i : ℕ) : Option Resume :=
  (c.running.lookup i).map fun j => ⟨i,j.command,j.target,j.resumed,c⟩

/-- The first resume of a job, which follows its start. -/
def Core.firstResume (c : Core) (i : ℕ) (e : Event) : Option Resume :=
  match e with
  | .start o k =>
    match c.attr o "command" with
    | .fn f => if k = i then some ⟨i,f,c.attr o "name",0,c⟩ else none
    | _ => none
  | _ => none

def resumed : List (Event × Core) → List Resume
  | [] => []
  | x::l =>
    match x.1 with
    | .resuming i =>
      (x.2.runningResume i).toList ++ (l.head?.bind fun y => x.2.firstResume i y.1).toList ++ resumed l
    | _ => resumed l

/-- In the run a job changes no file but that of its target. -/
def Confines (E : Env) (l : List (Event × Core)) : Prop :=
  ∀ r ∈ resumed l, ∀ k s c, r.name = .str k → r.run E = (.ret s,c) → ∀ p, p ≠ k → c.files p = r.state.files p

section
variable {l l' : List (Event × Core)} {c : Core} {i : ℕ} {r : Resume}

theorem mem_resumed_of_suffix (h : l <:+ l') (hr : r ∈ resumed l) : r ∈ resumed l' := by
  obtain ⟨before,rfl⟩ := h
  induction before with
  | nil => exact hr
  | cons x before ih =>
    rw [List.cons_append,resumed]
    split
    · exact List.mem_append_right _ ih
    · exact ih

theorem mem_resumed_running {j : Job} (hx : (.resuming i,c) ∈ l) (hl : c.running.lookup i = some j) :
    ⟨i,j.command,j.target,j.resumed,c⟩ ∈ resumed l := by
  obtain ⟨before,after,rfl⟩ := List.append_of_mem hx
  apply mem_resumed_of_suffix (List.suffix_append before _)
  simp [resumed,Core.runningResume,hl]

theorem mem_resumed_first {c' : Core} {o : ObjId} {f : Fn} (hf : c.attr o "command" = .fn f) :
    ⟨i,f,c.attr o "name",0,c⟩ ∈ resumed ((.resuming i,c)::(.start o i,c')::l) := by
  simp [resumed,Core.firstResume,hf]

end
end Presto
