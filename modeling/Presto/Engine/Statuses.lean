import Presto.Engine.Goals
import Presto.Engine.Accounting

/-! The statuses of the targets over a whole run: they move one way, and a command is run once. -/
namespace Presto
open Program Traced

/-- The fields of a target that the engine goes by. -/
def engineFields : Finset String := {"status","name","command","bring_up_to_date","deps","dep_status"}

theorem status_guarded : "status" ∈ engineFields ∪ Core.watched.toFinset := by decide

/-- The commands are functions, the targets are brought up to date by the method of `__target`, no
target is the class of another one, and no dependency can be noted in a field of the engine. -/
structure Core.Regular (c : Core) : Prop where
  ready : c.Ready
  safe : c.NewerSafe engineFields
  callable : c.Callable
  method : ∀ m o, c.registry m = .obj o → ∀ p ∈ o::(c.heap o).chain, c.rawget p "bring_up_to_date" = .nil
  unfailed : c.Lacks "dep_status"
  roots : ∀ m o, c.registry m = .obj o → (c.heap o).isTarget → ∀ p ∈ (c.heap o).chain, ∀ n,
    ¬(c.registry n = .obj p ∧ (c.heap p).isTarget)

/-- The goals lead to the target `q`. -/
def Core.Wants (c : Core) (q : ObjId) : Prop :=
  ∃ g ∈ c.wanted, ∃ o, c.registry g = .obj o ∧ Relation.ReflTransGen c.Feeds o q

/-- The statuses and the starts of a run. -/
structure StatusMachine (E : Env) (c : Core) : Prop where
  first : ∀ x ∈ (updateGoals E ⟨c,[]⟩).2.trace, c.Advances x.2
  ordered : (updateGoals E ⟨c,[]⟩).2.trace.Pairwise fun new old => old.2.Advances new.2
  last : ∀ x ∈ (updateGoals E ⟨c,[]⟩).2.trace, x.2.Advances (updateGoals E ⟨c,[]⟩).2.now
  once : ((starts (updateGoals E ⟨c,[]⟩).2).map Prod.fst).Nodup
  rebuilt : E.flags.alwaysMake = true → (updateGoals E ⟨c,[]⟩).1 = .ret () → ∀ o, c.Wants o →
    (c.attr o "command").truthy → ((starts (updateGoals E ⟨c,[]⟩).2).map Prod.fst).count o = 1

namespace Core.Regular
variable {E : Env} {c : Core}

def build (h : c.Regular) (hslots : 1 ≤ E.slots) : Build E :=
  ⟨c,engineFields,h.ready,by decide,h.safe,hslots⟩

theorem rooted (h : c.Regular) (hslots : 1 ≤ E.slots) : (h.build hslots).Rooted where
  method := ⟨show "name" ∈ engineFields by decide,show "bring_up_to_date" ∈ engineFields by decide,h.method⟩
  commands := ⟨show "command" ∈ engineFields by decide,h.callable⟩
  deps := show "deps" ∈ engineFields by decide
  failed := show "dep_status" ∈ engineFields by decide
  unfailed := h.unfailed
  roots m o ht p hp n hn := h.roots m o ht.1 ht.2 p hp n hn

end Core.Regular

namespace Build
variable {E : Env} {B : Build E} {w : World}

/-- No target is sure to be left alone. -/
theorem unsure (B : Build E) {o : ObjId} (h : False) : ∀ k ∈ B.origin.deps o, ∀ p, B.Target k p → False :=
  h.elim

/-- With `-B` a target that answers `none` has no command. -/
def commandSigns (B : Build E) : B.Signs where
  Still o := E.flags.alwaysMake = true → (B.origin.attr o "command").truthy = false
  Source _ := True
  Present _ := True
  Clean _ _ := True
  Sure _ := False
  Good _ _ := True
  Inv _ := True
  first := trivial
  sees _ _ _ _ := trivial
  emit _ _ := trivial
  keeps h _ := h
  records _ h := h
  resume _ _ _ _ _ _ _ := ⟨trivial,fun _ => trivial,fun _ _ _ _ => trivial⟩
  missing _ _ _ _ := ⟨trivial,fun _ => ⟨fun _ _ => trivial,fun _ _ _ => trivial⟩,fun h => h.elim⟩
  compare _ _ _ _ _ _ _ _ _ := ⟨trivial,fun _ => trivial,fun h => h.elim⟩
  reading _ _ _ _ := trivial
  fresh _ hB _ _ h := absurd h (by simp [hB])
  bound _ _ hc _ := hc
  sure := @unsure E B

/-- What the goals lead to is done when they are. -/
theorem Signs.done_of_wants {S : B.Signs} (h : S.Facts w) (hd : ∀ g ∈ B.origin.wanted, S.done w.now g)
    {q : ObjId} (hq : B.origin.Wants q) : ∃ n, B.Target n q ∧ S.done w.now n := by
  obtain ⟨g,hg,o,ho,hreach⟩ := hq
  have htarget : ∀ {n p}, S.done w.now n → B.origin.registry n = .obj p → B.Target n p := by
    intro n p hn hp
    rcases hn with ⟨hnil,_⟩ | ⟨ht,_⟩ | ⟨ht,_⟩
    · exact absurd (hnil.symm.trans hp) (by simp)
    · obtain rfl := Value.obj.inj (ht.1.symm.trans hp)
      exact ht
    · obtain rfl := Value.obj.inj (ht.1.symm.trans hp)
      exact ht
  induction hreach with
  | refl => exact ⟨g,htarget (hd g hg) ho,hd g hg⟩
  | tail _ hstep ih =>
    obtain ⟨n,ht,hn⟩ := ih
    obtain ⟨k,hk,hreg⟩ := hstep
    have hdone := Signs.done_reaches h hn ht hk
    exact ⟨k,htarget hdone hreg,hdone⟩

theorem Kept.advances {c : Core} (h : B.Kept c) : B.origin.Advances c := by
  refine ⟨h.1.next,fun o ho => ?_⟩
  rw [B.ready.unbuilt o]
  rcases h.2.status o (ho.trans_le h.1.next) with hs | ⟨s,hne,hs⟩
  · rw [hs]
    exact .same _
  · rw [hs]
    exact .start s hne

end Build

/-- In every run of a graph whose fields are safe the statuses move one way, no job is started
twice, and with `-B` every command is run. -/
theorem statuses_one_way (E : Env) (hslots : 1 ≤ E.slots) (c : Core) (hc : c.Regular) : StatusMachine E c := by
  have hr := hc.rooted hslots
  have hbooks := (hc.build hslots).updateGoals_books
  have hdone := (hc.build hslots).commandSigns.updateGoals_done hr
  refine ⟨fun x hx => ?_,hbooks.recorded.ordered,fun x hx => (hbooks.recorded.always x hx).2,
    hbooks.once hr.commands,fun hB hret o ho hcmd => ?_⟩
  · exact Build.Kept.advances (hbooks.recorded.always x hx).1
  · obtain ⟨n,ht,hn⟩ := Build.Signs.done_of_wants hdone.1 (hdone.2 hret) ho
    have hactive : Build.Signs.Active (updateGoals E ⟨c,[]⟩).2.now o := by
      rcases hn with ⟨hnil,_⟩ | ⟨hp,hs⟩ | ⟨hp,hstill,_⟩
      · exact absurd (hnil.symm.trans ht.1) (by simp)
      · obtain rfl := Value.obj.inj (hp.1.symm.trans ht.1)
        exact .inr hs
      · rw [Value.obj.inj (hp.1.symm.trans ht.1)] at hstill
        have hnone : (c.attr o "command").truthy = false := hstill hB
        rw [hcmd] at hnone
        cases hnone
    obtain ⟨i,hi⟩ := (hdone.1.touched o hactive).1
    exact List.count_eq_one_of_mem (hbooks.once hr.commands) (List.mem_map.mpr ⟨(o,i),hi,rfl⟩)

theorem regular_withLib : Core.withLib.Regular where
  ready := ready_withLib
  safe := .inl rfl
  callable := by
    refine ⟨rfl,fun m o hm p hp => ?_⟩
    obtain rfl | rfl | rfl := registry_withLib hm
    · obtain rfl := List.mem_singleton.mp hp
      exact .inl ⟨.user 0,rfl⟩
    · obtain rfl := List.mem_singleton.mp hp
      exact .inl ⟨.user 1,rfl⟩
    · obtain rfl := List.mem_singleton.mp hp
      exact .inr rfl
  method _ _ _ p _ := lacks_withLib _ (by decide) p
  unfailed := lacks_withLib _ (by decide)
  roots m o hm _ p hp := by
    obtain rfl | rfl | rfl := registry_withLib hm <;> cases hp

/-- Both jobs run, one after the other. -/
theorem statuses_one_way_lib : starts (updateGoals Env.yielding ⟨Core.withLib,[]⟩).2 = [(3,2),(4,1)] ∧
    StatusMachine Env.yielding Core.withLib :=
  ⟨by decide +kernel,statuses_one_way Env.yielding (by decide) Core.withLib regular_withLib⟩

/-- The target `deps_newer` is started a second time while its first job runs. -/
theorem newer_starts_twice : ¬StatusMachine Env.yielding Core.withNewer := by
  intro h
  have hbad : ¬((starts (updateGoals Env.yielding ⟨Core.withNewer,[]⟩).2).map Prod.fst).Nodup := by
    decide +kernel
  exact hbad h.once

end Presto
