import Presto.Engine.Waits
import Presto.Engine.Runs
import Presto.CommandLine

/-! How many handles `make.proc.wait` passes to the system: two for each job that is running, and
so never more than twice the number after `-j`. -/
namespace Presto
open Program Traced

def invalidHandleValue : ℤ := -1

/-- `MAXIMUM_WAIT_OBJECTS` -/
def maximumWaitObjects : ℕ := 64

/-- The handles of a `struct process` for which `make_proc_wait` asks. `CreateEvent` gives a handle
or zero. -/
structure WaitHandles where
  hProcess : ℤ
  hEvent : ℤ
  created : hEvent ≠ invalidHandleValue

/-- The handles that `make_proc_wait` collects. -/
def makeProcWait (processes : List WaitHandles) : List ℤ :=
  processes.flatMap fun p => p.hProcess::if p.hEvent ≠ invalidHandleValue then [p.hEvent] else []

theorem length_makeProcWait (processes : List WaitHandles) :
    (makeProcWait processes).length = 2*processes.length := by
  induction processes with
  | nil => rfl
  | cons p l ih =>
    rw [makeProcWait,List.flatMap_cons,if_pos p.created]
    change (makeProcWait l).length+2 = _
    rw [ih,List.length_cons]
    ring

/-- The field `data` of a process table. -/
def processData (data : ℕ → WaitHandles) : Value → Option WaitHandles
  | .proc p => some (data p)
  | _ => none

/-- What `make.proc.wait` passes to `WaitForMultipleObjects`. -/
def waitHandles (data : ℕ → WaitHandles) (handles : List Value) : List ℤ :=
  makeProcWait (handles.filterMap (processData data))

/-- The system takes the call. -/
def WaitAccepted (handles : List ℤ) : Prop := 1 ≤ handles.length ∧ handles.length ≤ maximumWaitObjects

/-- The commands only block in `make.run`, which yields the table of a process. -/
def Env.RunsOnly (E : Env) : Prop :=
  ∀ f name i k v, (E.resume f name i k).signal = .yielded v → ∃ p, v = .proc p

section
variable {E : Env} {c : Core} {handles : List Value} (data : ℕ → WaitHandles)

/-- A wait for all jobs is one for two handles of each. -/
theorem length_waitHandles (h : Blocked E c handles) :
    (waitHandles data handles).length = 2*c.running.keys.card := by
  obtain ⟨picked,hnd,rfl,hmem,hpicked⟩ := h.exact
  have hproc : ∀ x ∈ picked, ∃ p, x.2 = .proc p := by
    intro x hx
    obtain ⟨j,hl,hy⟩ := hpicked x hx
    obtain ⟨p,hp⟩ := h.waits x.1 j hl
    exact ⟨p,hy.unique hp⟩
  have hlen : ((picked.map Prod.snd).filterMap (processData data)).length = picked.length := by
    rw [List.filterMap_length_eq_length.mpr,List.length_map]
    intro v hv
    obtain ⟨x,hx,rfl⟩ := List.mem_map.mp hv
    obtain ⟨p,hp⟩ := hproc x hx
    rw [hp]
    rfl
  have hcard : c.running.keys = (picked.map Prod.fst).toFinset := by
    ext i
    rw [Finmap.mem_keys,List.mem_toFinset,hmem]
  rw [waitHandles,length_makeProcWait,hlen,hcard,List.toFinset_card_of_nodup hnd,
    List.length_map]

theorem waitAccepted_iff (h : Blocked E c handles) : WaitAccepted (waitHandles data handles) ↔
    1 ≤ c.running.keys.card ∧ c.running.keys.card ≤ 32 := by
  rw [WaitAccepted,length_waitHandles data h,maximumWaitObjects]
  omega

end
/-- Each wait is accepted if and only if at least one and at most 32 jobs are running; so each is
when the number after `-j` is one of these. -/
theorem waitAccepted_of_jobs (data : ℕ → WaitHandles) {E : Env} (hrun : E.RunsOnly) (arg : Arg)
    (s : Settings) (hslots : E.slots = (s.setMaxJobs (atoi arg)).slots) :
    (∀ c handles c', (Event.wait handles,c') ∈ (updateGoals E ⟨c,[]⟩).2.trace →
      (WaitAccepted (waitHandles data handles) ↔
        1 ≤ c'.running.keys.card ∧ c'.running.keys.card ≤ 32)) ∧
    (1 ≤ atoi arg ∧ atoi arg ≤ 32 → ∀ (B : Build E) handles c',
      (Event.wait handles,c') ∈ (updateGoals E ⟨B.origin,[]⟩).2.trace →
        WaitAccepted (waitHandles data handles)) := by
  have hiff : ∀ c handles c', (Event.wait handles,c') ∈ (updateGoals E ⟨c,[]⟩).2.trace →
      (WaitAccepted (waitHandles data handles) ↔
        1 ≤ c'.running.keys.card ∧ c'.running.keys.card ≤ 32) := by
    intro c handles c' hin
    apply waitAccepted_iff
    refine ((updateGoals_waits E c) _ hin handles rfl).1.mpr fun i j _ hy => ?_
    obtain ⟨p,hp⟩ := hrun _ _ _ _ _ hy.2
    cases hp
  refine ⟨hiff,fun ⟨hpos,hle⟩ B handles c' hin => (hiff _ _ _ hin).mpr ?_⟩
  have hj : E.slots = atoi arg := by
    rw [hslots]
    exact if_neg (by omega)
  have ha := (B.updateGoals_books.recorded.always _ hin).1.2
  have hleft := ((updateGoals_waits E B.origin) _ hin handles rfl).2
  have hcount := ha.count
  have hbound := ha.bound
  dsimp only at hcount hbound hleft
  omega

/-- The slots of a run with `-j arg`. -/
def Env.withSlots (E : Env) (arg : Arg) : Env :=
  { E with slots := ((⟨∅,1,fun _ => none,[]⟩ : Settings).setMaxJobs (atoi arg)).slots }

theorem runsOnly_spawning (arg : Arg) : (Env.spawning.withSlots arg).RunsOnly := by
  intro f name i k v hv
  unfold Env.spawning Env.withSlots at hv
  dsimp only at hv
  split_ifs at hv
  exact ⟨7,(Signal.yielded.inj hv).symm⟩

/-- Every process has the handles 4 and 8. -/
def sameHandles : ℕ → WaitHandles := fun _ => ⟨4,8,by decide⟩

/-- A program and its library, built with `-j 2`. -/
theorem waitAccepted_lib : ∃ c',
    (Event.wait [.proc 7],c') ∈
      (updateGoals (Env.spawning.withSlots "2".toList) ⟨Core.withLib,[]⟩).2.trace ∧
    WaitAccepted (waitHandles sameHandles [.proc 7]) := by
  have h : ∃ x ∈ (updateGoals (Env.spawning.withSlots "2".toList) ⟨Core.withLib,[]⟩).2.trace,
      x.1 = .wait [.proc 7] := by decide +kernel
  obtain ⟨⟨e,c'⟩,hin,rfl⟩ := h
  have hw := (waitAccepted_of_jobs sameHandles (runsOnly_spawning "2".toList) "2".toList
    ⟨∅,1,fun _ => none,[]⟩ rfl).2 (by decide)
    ⟨Core.withLib,{"status"},ready_withLib,by decide,.inl rfl,by decide⟩ [.proc 7] c'
  dsimp only at hw
  exact ⟨c',hin,hw hin⟩

/-- A makefile with 33 targets, all of them goals. -/
def Core.crowded : Core :=
  let names := (List.range 33).map fun i => String.ofList (List.replicate (i+1) 'a')
  { names.foldl (fun c name => (targetNewindex name (.fn (.user 0)) c).2) (Core.init fun _ => .absent)
    with goals := names.toFinset }

/-- `-j 0` stands for 1024 slots, and 33 jobs are too many; with `-j -1` the end of a job opens no
slot, and nothing is left to wait for. -/
theorem waits_rejected :
    ((Env.spawning.withSlots "0".toList).RunsOnly ∧
      (∃ c', (Event.wait (List.replicate 33 (.proc 7)),c') ∈
        (updateGoals (Env.spawning.withSlots "0".toList) ⟨Core.crowded,[]⟩).2.trace) ∧
      ¬WaitAccepted (waitHandles sameHandles (List.replicate 33 (.proc 7)))) ∧
    (Env.spawning.withSlots "-1".toList).RunsOnly ∧
      (∃ c', (Event.wait [],c') ∈
        (updateGoals (Env.spawning.withSlots "-1".toList) ⟨Core.withCommand,[]⟩).2.trace) ∧
      ¬WaitAccepted (waitHandles sameHandles []) := by
  have hcrowd : ∃ x ∈ (updateGoals (Env.spawning.withSlots "0".toList) ⟨Core.crowded,[]⟩).2.trace,
      x.1 = .wait (List.replicate 33 (.proc 7)) := by decide +kernel
  have hempty : ∃ x ∈ (updateGoals (Env.spawning.withSlots "-1".toList) ⟨Core.withCommand,[]⟩).2.trace,
      x.1 = .wait [] := by decide +kernel
  obtain ⟨⟨_,c'⟩,hin,rfl⟩ := hcrowd
  obtain ⟨⟨_,d'⟩,hin',rfl⟩ := hempty
  refine ⟨⟨runsOnly_spawning _,⟨c',hin⟩,?_⟩,runsOnly_spawning _,⟨d',hin'⟩,?_⟩
  · rw [WaitAccepted,waitHandles,length_makeProcWait]
    simp [processData,maximumWaitObjects]
  · rw [WaitAccepted,waitHandles,length_makeProcWait]
    simp

end Presto
