import Presto.Engine.Order

/-! Which goals fail is settled before the build begins: by the files, the graph, and by which commands fail. -/
namespace Presto
open Program Traced

/-- What can be printed, if it is there at all. -/
def Value.Printable (v : Value) : Prop := v = .nil ∨ (∃ s, v = .str s) ∨ ∃ i, v = .num i

namespace Core
variable (E : Env) (c : Core) (bad : ObjId → Prop)

/-- The command of the target `o` may come back with `s`, in files that the commands can produce. -/
def CanAnswer (o : ObjId) (s : Signal) : Prop := ∃ m f k i n c' c'', c.registry m = .obj o ∧ (c.heap o).isTarget ∧
  c.attr o "command" = .fn f ∧ c.rawget o "name" = .str k ∧ c.Produces E c'.files ∧
  resumeCommand E f (.str k) i n c' = (.ret s,c'')

/-- The command of a target fails exactly if the target is `bad`, whatever is built before it. -/
structure Judged : Prop where
  finished : ∀ o, c.CanAnswer E o .finished → ¬bad o
  raised : ∀ o v, c.CanAnswer E o (.raised v) → bad o

/-- What commands raise can be printed, and they wait for nothing but processes. -/
structure WellSpoken : Prop where
  raised : ∀ o v, c.CanAnswer E o (.raised v) → v.Printable
  yielded : ∀ o v, c.CanAnswer E o (.yielded v) → v = .nil ∨ ∃ p, v = .proc p

/-- The target or file `n` cannot be brought up to date. -/
inductive Fails : String → Prop
  | source {n : String} : c.registry n = .nil → c.files.exists n = false → Fails n
  | dep {n k : String} {o : ObjId} : c.registry n = .obj o → (c.heap o).isTarget → k ∈ c.deps o → Fails k → Fails n
  | command {n : String} {o : ObjId} : c.registry n = .obj o → (c.heap o).isTarget → ¬c.Fresh false o →
    (c.attr o "command").truthy → bad o → Fails n
  | rule {n : String} {o : ObjId} : c.registry n = .obj o → (c.heap o).isTarget → ¬c.Fresh false o →
    (c.attr o "command").truthy = false → Fails n

end Core

namespace Build
variable {E : Env} {B : Build E} {bad : ObjId → Prop} {w : World} {o : ObjId} {n : String}

/-- What has nothing to be done was up to date, and the command of what has been built does not fail. -/
def verdictSigns (B : Build E) (hg : B.origin.FileGraph) (hr : B.Rooted) (hE : B.origin.Confined E)
    (hwatch : ∀ k ∈ Core.watched, k ∈ B.guarded) (hJ : B.origin.Judged E bad) : B.Signs :=
  { B.freshSigns hg hr hE hwatch with
    Good := fun o _ => ¬bad o
    keeps := fun h _ => h
    records := fun _ h => h
    resume := by
      intro w o f name i n s c hb h hrun hstart _ hsure hres
      obtain ⟨m,ht⟩ := hrun.target
      obtain ⟨k,rfl,hk,_⟩ := hrun.name
      refine ⟨h.resume hb hE hrun ⟨i,hstart⟩ hres,fun hs => ?_,fun _ _ _ hgood => hgood⟩
      subst hs
      exact hJ.finished o ⟨m,f,k,i,_,w.now,c,ht.1,ht.2,hrun.command,hk,h.reached,hres⟩ }

/-- What has been started is a target. -/
theorem target_of_touched {S : B.Signs} (hb : B.Books w) (hr : B.Rooted) (hf : S.Facts w) (ht : Touched w o) :
    ∃ m, B.Target m o := by
  obtain ⟨i,hi⟩ := ht
  by_contra hno
  exact hb.started hr.commands (o,i) hi (hf.clear o (hb.targets hr.commands (o,i) hi) (not_exists.mp hno)).1

section
variable (hg : B.origin.FileGraph) (hr : B.Rooted) (hE : B.origin.Confined E)
  (hwatch : ∀ k ∈ Core.watched, k ∈ B.guarded) (hJ : B.origin.Judged E bad) (hA : E.flags.alwaysMake = false)
include hg hr hE hwatch hJ hA

/-- What is done at the end of a run does not fail. -/
theorem not_fails_of_done
    (hdone : (B.verdictSigns hg hr hE hwatch hJ).done (updateGoals E ⟨B.origin,[]⟩).2.now n) :
    ¬B.origin.Fails bad n := by
  have hf := ((B.verdictSigns hg hr hE hwatch hJ).updateGoals_done hr).1
  have hfresh : ∀ {o}, (B.verdictSigns hg hr hE hwatch hJ).Still o → B.origin.Fresh false o := by
    intro o hstill
    have h : B.origin.Fresh E.flags.alwaysMake o := hstill
    rwa [hA] at h
  intro h
  induction h with
  | source hnil hno =>
    cases hdone with
    | source _ hs =>
      have hex : B.origin.files.exists _ = true := hs hA
      rw [hno] at hex
      cases hex
    | built ht _ => exact absurd (hnil.symm.trans ht.1) (by simp)
    | idle ht _ _ => exact absurd (hnil.symm.trans ht.1) (by simp)
  | dep hreg _ hk _ ih =>
    cases hdone with
    | source hnil _ => exact absurd (hnil.symm.trans hreg) (by simp)
    | built ht hs =>
      obtain rfl := Value.obj.inj (ht.1.symm.trans hreg)
      exact ih (hf.closed _ _ ht (.inr hs) _ hk)
    | idle ht _ hdeps =>
      obtain rfl := Value.obj.inj (ht.1.symm.trans hreg)
      exact ih (hdeps _ hk)
  | command hreg _ hold _ hbad =>
    cases hdone with
    | source hnil _ => exact absurd (hnil.symm.trans hreg) (by simp)
    | built ht hs =>
      obtain rfl := Value.obj.inj (ht.1.symm.trans hreg)
      exact hf.good _ _ ht hs hbad
    | idle ht hstill _ =>
      obtain rfl := Value.obj.inj (ht.1.symm.trans hreg)
      exact hold (hfresh hstill)
  | rule hreg _ hold hno =>
    cases hdone with
    | source hnil _ => exact absurd (hnil.symm.trans hreg) (by simp)
    | built ht hs =>
      obtain rfl := Value.obj.inj (ht.1.symm.trans hreg)
      obtain ⟨⟨i,hi⟩,_⟩ := hf.touched _ (.inr hs)
      obtain ⟨x,hx,hxe⟩ := event_of_starts hi
      have hcommand := (mayStart_of_start hr x hx _ i hxe).command
      rw [hno] at hcommand
      cases hcommand
    | idle ht hstill _ =>
      obtain rfl := Value.obj.inj (ht.1.symm.trans hreg)
      exact hold (hfresh hstill)

/-- What is started was stale, and none of its dependencies fails. -/
theorem clear_of_touched (ht : Touched (updateGoals E ⟨B.origin,[]⟩).2 o) :
    (B.origin.Stale o ∧ (B.origin.attr o "command").truthy) ∧ ∀ n ∈ B.origin.deps o, ¬B.origin.Fails bad n := by
  let S := B.verdictSigns hg hr hE hwatch hJ
  have hf : S.Facts (updateGoals E ⟨B.origin,[]⟩).2 := (S.updateGoals_done hr).1
  obtain ⟨i,hi⟩ := ht
  obtain ⟨x,hx,hxe⟩ := event_of_starts hi
  have hmay := mayStart_of_start hr x hx o i hxe
  have halways := B.updateGoals_books.recorded.always x hx
  obtain ⟨_,_,_,_,hdone⟩ := hf.begun x hx o i hxe
  refine ⟨⟨⟨hmay.wanted,fun hfresh => ?_⟩,hmay.command⟩,fun n hn => ?_⟩
  · obtain ⟨m,hm⟩ := target_of_touched B.updateGoals_books hr hf ⟨i,hi⟩
    refine hf.sure (o,i) hi ⟨hA,?_,m,hm⟩
    rw [hA]
    exact hfresh
  · exact not_fails_of_done hg hr hE hwatch hJ hA ((hdone n hn).mono halways.1.1.next halways.2)

end
end Build
end Presto
