import Presto.Engine.Order

/-! After a build that has ended without an error, and some changes of files, the next build starts exactly what leads
to a change. -/
namespace Presto
open Program Traced

namespace Core
variable (c : Core) (changed : String → Prop)

/-- A source that `o` depends on has changed, or the file of `o` itself. -/
def Hit (o : ObjId) : Prop :=
  (∃ n ∈ c.deps o, c.registry n = .nil ∧ changed n) ∨ ∃ k, c.rawget o "name" = .str k ∧ changed k

/-- The target `o` leads to a change. -/
def Affected (o : ObjId) : Prop := ∃ p, Relation.ReflTransGen c.Feeds o p ∧ c.Hit changed p

variable {c changed} {fs fs' : FileSystem} {m : String} {o p : ObjId}

theorem UpToDate.fresh (h : c.UpToDate m) (hm : c.registry m = .obj o) : c.Fresh false o := by
  induction h generalizing o with
  | source _ hnil _ => exact absurd (hnil.symm.trans hm) (by simp)
  | target _ hreg _ hex hold _ ih =>
    obtain rfl := Value.obj.inj (hreg.symm.trans hm)
    exact .mk (fun h => by cases h) (fun _ => ⟨hex,hold⟩) fun _ n hn p hp _ => ih n hn hp

/-- The name leads to no change. -/
structure Spared (c : Core) (changed : String → Prop) (n : String) : Prop where
  source : c.registry n = .nil → ¬changed n
  target : ∀ o, c.registry n = .obj o → ¬c.Affected changed o

theorem Spared.dep (h : c.Spared changed m) (hm : c.registry m = .obj o) {n : String} (hn : n ∈ c.deps o) :
    c.Spared changed n where
  source hnil hch := h.target o hm ⟨o,.refl,.inl ⟨n,hn,hnil,hch⟩⟩
  target p hp ha := by
    obtain ⟨q,hreach,hhit⟩ := ha
    exact h.target o hm ⟨q,.head ⟨n,hn,hp⟩ hreach,hhit⟩

theorem Spared.name (h : c.Spared changed m) (hm : c.registry m = .obj o) {k : String}
    (hk : c.rawget o "name" = .str k) : ¬changed k := fun hch => h.target o hm ⟨o,.refl,.inr ⟨k,hk,hch⟩⟩

end Core

namespace Build
variable {E : Env} {B : Build E} {w : World} {changed : String → Prop} {fs' : FileSystem} {o : ObjId} {n : String}

section
variable {hg : B.origin.FileGraph} {hr : B.Rooted} {hE : B.origin.Confined E}
  {hwatch : ∀ k ∈ Core.watched, k ∈ B.guarded} {hA : E.flags.alwaysMake = false}

end
end Build

end Presto
