import Presto.Engine.Fresh
import Presto.Engine.Resumes
import Presto.Program.Agree

/-! A run whose jobs change no file but that of their target is also one of commands that never do. -/
namespace Presto
open Program Traced

/-- The commands change only the file of their target. -/
def Env.confined (E : Env) : Env := { E with
  resume := fun f name i n => { E.resume f name i n with
    effect := fun fs p =>
      match name with
      | .str k => if p = k then (E.resume f name i n).effect fs p else fs p
      | _ => (E.resume f name i n).effect fs p }
  md := fun path fs => (E.md path fs).map fun fs' p => if p = path then fs' p else fs p }

/-- Commands that never change another file than that of their target. -/
structure Env.Tidy (E : Env) : Prop where
  effect : ∀ f k i n fs p, p ≠ k → (E.resume f (.str k) i n).effect fs p = fs p
  md : ∀ path fs fs' p, E.md path fs = some fs' → p ≠ path → fs' p = fs p

section
variable {E : Env} {f : Fn} {name : Value} {i n : ℕ} {c : Core}

theorem resumeCommand_user (hnil : f ≠ .nilCommand) (hdir : f ≠ .dirCommand) : resumeCommand E f name i n c =
    (.ret (E.resume f name i n).signal,{ c with
      files := (E.resume f name i n).effect c.files
      deleteOnError := c.deleteOnError ∪ (E.resume f name i n).unlink }) := by
  cases f with
  | nilCommand => exact absurd rfl hnil
  | dirCommand => exact absurd rfl hdir
  | _ => rfl

theorem resumeCommand_dir {path : String} (hdir : c.files.isDir path = false) {fs : FileSystem}
    (hmd : E.md path c.files = some fs) :
    resumeCommand E .dirCommand (.str path) i n c = (.ret .finished,{ c with files := fs }) := by
  unfold resumeCommand
  rw [run_bind_gets]
  simp only [id,hdir,hmd]
  rfl

theorem Env.Tidy.files (h : E.Tidy) {k : String} {s : Signal} {c' : Core}
    (hres : resumeCommand E f (.str k) i n c = (.ret s,c')) {p : String} (hp : p ≠ k) : c'.files p = c.files p := by
  by_cases hnil : f = .nilCommand
  · subst hnil
    cases hres
    rfl
  by_cases hdir : f = .dirCommand
  · subst hdir
    unfold resumeCommand at hres
    rw [run_bind_gets] at hres
    dsimp only [id] at hres
    split_ifs at hres
    · cases hres
      rfl
    · cases hfs : E.md k c.files with
      | none =>
        rw [hfs] at hres
        cases hres
        rfl
      | some fs =>
        rw [hfs] at hres
        cases hres
        exact h.md k _ fs p hfs hp
  · rw [resumeCommand_user hnil hdir] at hres
    cases hres
    exact h.effect f k i n _ p hp

theorem Env.Tidy.confined (h : E.Tidy) (c : Core) : c.Confined E :=
  fun _ _ _ _ _ _ _ _ _ _ _ _ _ hres _ hp => h.files hres hp

/-- A resume that changes only the file of its target is one of the confined command. -/
theorem resumeCommand_confined (h : ∀ k s c', name = .str k → resumeCommand E f name i n c = (.ret s,c') →
    ∀ p, p ≠ k → c'.files p = c.files p) :
    resumeCommand E.confined f name i n c = resumeCommand E f name i n c := by
  by_cases hnil : f = .nilCommand
  · subst hnil
    rfl
  by_cases hdir : f = .dirCommand
  · subst hdir
    cases name with
    | str path =>
      cases hd : c.files.isDir path with
      | true => simp only [resumeCommand,run_bind_gets,id,hd,if_true]
      | false =>
        cases hmd : E.md path c.files with
        | none =>
          have hmd' : E.confined.md path c.files = none := by simp only [Env.confined,hmd,Option.map_none]
          simp only [resumeCommand,run_bind_gets,id,hd,hmd,hmd']
        | some fs =>
          have hmd' : E.confined.md path c.files = some fs := by
            simp only [Env.confined,hmd,Option.map_some]
            congr 1
            funext p
            split_ifs with hp
            · rfl
            · exact (h path _ _ rfl (resumeCommand_dir hd hmd) p hp).symm
          rw [resumeCommand_dir hd hmd,resumeCommand_dir hd hmd']
    | _ => rfl
  · rw [resumeCommand_user hnil hdir,resumeCommand_user hnil hdir]
    have hfiles : (E.confined.resume f name i n).effect c.files = (E.resume f name i n).effect c.files := by
      cases name with
      | str k =>
        funext p
        by_cases hp : p = k
        · exact if_pos hp
        · exact (if_neg hp).trans (h k _ _ rfl (resumeCommand_user hnil hdir) p hp).symm
      | _ => rfl
    rw [hfiles]
    rfl

end

section
variable {E : Env} {T : List (Event × Core)}

variable (hT : Confines E T)
include hT

/-- What a finished job of the run has left behind. -/
theorem finish_confined {r : Resume} (hr : r ∈ resumed T) : r.finish E.confined = r.finish E := by
  unfold Resume.finish Resume.run
  rw [resumeCommand_confined fun k s c' hk hres => hT r hr k s c' hk hres]

end

end Presto
