import Presto.CommandLine.Reading

/-! The goals and the settings of a command line, read after the usage text, against what the two
passes make of them. -/
namespace Presto
open Program

def Item.goal? : Item → Option Arg
  | .goal a => some a
  | _ => none

/-- The goal arguments. -/
def goalArgs (argv : List Arg) : Finset Arg := ((readArgs true argv).filterMap Item.goal?).toFinset

section
variable (S : System) (argv : List Arg) (env : Arg → Option Arg) (cwd : Arg)

/-- Neither pass raises, and the goals are those of the command line. -/
def GoalsArrive : Prop :=
  (pmain S argv (Shell.start env cwd)).1 = .ret () ∧
    (pmain S argv (Shell.start env cwd)).2.goals = some (goalArgs argv)

/-- Both passes are made, and their settings are those of each item applied once. -/
def PassesOnce : Prop :=
  (pmain S argv (Shell.start env cwd)).1 = .ret () ∧
    (pmain S argv (Shell.start env cwd)).2.status = 0 ∧
    (pmain S argv (Shell.start env cwd)).2.settings =
      (readArgs true argv).foldl (applyItem S) (Shell.start env cwd).settings

end

section
variable {S : System} {argv : List Arg} {env : Arg → Option Arg} {cwd : Arg}

/-- The goals of a command line reach the build exactly if there are none, and
`parse_commandline` cuts it into plain items. -/
theorem goalsArrive_iff (S : System) (hS : S.Succeeds) (hg : S.KeepsGoals) (argv : List Arg)
    (env : Arg → Option Arg) (cwd : Arg) :
    GoalsArrive S argv env cwd ↔ goalArgs argv = ∅ ∧ ∀ i ∈ cutArgs true argv, i.Plain := by
  constructor
  · rintro ⟨hret,hgoals⟩
    have hp := plain_of_pmain hret (.inr (by simp [hgoals]))
    obtain ⟨s',hrun,_,hs',_⟩ := pmain_plain hS hp env cwd
    rw [hrun,hs' hg] at hgoals
    exact ⟨(Option.some.inj hgoals).symm,hp⟩
  · rintro ⟨hnone,hp⟩
    obtain ⟨s',hrun,_,hs',_⟩ := pmain_plain hS hp env cwd
    unfold GoalsArrive
    rw [hrun,hnone]
    exact ⟨rfl,hs' hg⟩

/-- User code that sets a flag. -/
def System.keepGoing : System where
  run _ s := ({ s with settings := s.settings.setFlag "keep_going" },0)
  chdir _ path := path

theorem goalsArrive_flags :
    GoalsArrive System.keepGoing ["-ke".toList,"x=1".toList,"A=b".toList] (fun _ => none) [] :=
  (goalsArrive_iff System.keepGoing (fun _ _ => rfl) (fun _ _ => rfl) _ _ _).mpr (by decide)

theorem goal_raises : ¬GoalsArrive System.idle ["all".toList] (fun _ => none) [] := by
  rintro ⟨hret,hgoals⟩
  have hp := plain_of_pmain hret (.inr fun h => by rw [h] at hgoals; cases hgoals)
  exact absurd hp (by decide)

/-- Two passes act like one only if `parse_commandline` cuts the command line into plain items.
With a number behind every `-j` they do so exactly if what is read are plain items. -/
theorem passesOnce_iff (S : System) (hS : S.Succeeds) (hk : S.KeepsSettings) (argv : List Arg)
    (env : Arg → Option Arg) (cwd : Arg) :
    (PassesOnce S argv env cwd → ∀ i ∈ cutArgs true argv, i.Plain) ∧
    (.jobs none ∉ readArgs true argv →
      (PassesOnce S argv env cwd ↔ ∀ i ∈ readArgs true argv, i.Plain)) := by
  have hplain : PassesOnce S argv env cwd → ∀ i ∈ cutArgs true argv, i.Plain := by
    rintro ⟨hret,hstatus,_⟩
    exact plain_of_pmain hret (.inl hstatus)
  refine ⟨hplain,fun hj => ⟨fun h => ?_,fun hp => ?_⟩⟩
  · rw [← cutArgs_eq true argv hj]
    exact hplain h
  · have hcut := cutArgs_eq true argv hj
    rw [← hcut] at hp
    obtain ⟨s',hrun,hstatus,_,hs'⟩ := pmain_plain hS hp env cwd
    unfold PassesOnce
    rw [hrun,← hcut]
    refine ⟨rfl,hstatus,?_⟩
    rw [hs' hk,foldl_applyItem_twice hp]

/-- User code that registers a goal. -/
def System.addsGoal : System where
  run _ s := ({ s with goals := s.goals.map (insert "all".toList) },0)
  chdir _ path := path

theorem passesOnce_flags :
    PassesOnce System.addsGoal ["-kj".toList,"4".toList,"-f".toList,"x".toList,"A=b".toList]
      (fun _ => none) [] :=
  ((passesOnce_iff System.addsGoal (fun _ _ => rfl) (fun _ _ => rfl) _ _ _).2 (by decide)).mpr (by decide)

theorem directory_raises : ¬PassesOnce System.idle ["-C".toList,"out".toList] (fun _ => none) [] := by
  rintro ⟨hret,hstatus,_⟩
  have hp := plain_of_pmain hret (.inl hstatus)
  exact absurd hp (by decide)

end
end Presto
