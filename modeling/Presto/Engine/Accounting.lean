import Presto.Engine.Runs

/-! The accounts of the jobs and the statuses of the targets, at every event of a run. -/
namespace Presto
open Program Traced

/-- The accounts of the jobs at one moment. -/
structure Core.Balanced (c : Core) (E : Env) : Prop where
  count : c.count = c.running.keys.card
  nonneg : 0 ≤ c.count
  bound : c.count ≤ E.slots
  suspended : ∀ i j, c.running.lookup i = some j → j.suspended E i = true
  running : ∀ k o, Finds c.registry k o → (c.attr o "status" = Status.running.toValue ↔
    ∃! i, ∃ j, c.running.lookup i = some j ∧ j.Names c.registry o)

/-- The accounts balance at every event of a run and at its end, and no job number is used twice. -/
structure JobAccounting (E : Env) (w : World) : Prop where
  always : w.Always fun _ c => c.Balanced E
  now : w.now.Balanced E
  ids : ((starts w).map Prod.snd).Nodup

/-- No target inherits from a registered one for which a job can be started. -/
def Core.IdleClasses (c : Core) : Prop :=
  ∀ k o, Finds c.registry k o → ∀ p ∈ (c.heap o).chain, ∀ m, c.registry m = .obj p → ∀ f, c.attr p "command" ≠ .fn f

namespace Build
variable {E : Env} {B : Build E} {c : Core}

theorem Kept.balanced (h : B.Kept c) (hname : "name" ∈ B.guarded) (hclass : B.origin.IdleClasses) : c.Balanced E := by
  obtain ⟨hstays,hacc⟩ := h
  have hlinked := hstays.linked B.ready.sound.linked
  refine ⟨hacc.count,by rw [hacc.count]; positivity,hacc.bound,hacc.suspended,fun k o hf => ?_⟩
  have hforigin : Finds B.origin.registry k o := hstays.registry ▸ hf
  have ho' := B.ready.sound.registered hforigin.bound
  have ho : o < c.next := ho'.trans_le hstays.next
  constructor
  · intro hs
    have hraw : c.rawget o "status" = Status.running.toValue := by
      cases hh : c.holder o "status" with
      | none =>
        exfalso
        simp only [Core.attr,hh,hstays.registry] at hs
        rcases B.ready.sound.bound "status" rfl with hn | ⟨q,hq,_⟩
        · rw [hn] at hs
          split_ifs at hs
          all_goals cases hs
        · rw [hq] at hs
          split_ifs at hs
          all_goals cases hs
      | some p =>
        simp only [Core.attr,hh] at hs
        have hp := List.mem_of_find?_eq_some hh
        obtain ⟨_,_,_,m,_,hm⟩ := hacc.listed hname p (hlinked.lt_next ho hp) hs
        rcases List.mem_cons.mp hp with rfl | hp
        · exact hs
        · obtain ⟨f,hable⟩ := hacc.able p (hlinked.lt_next ho (List.mem_cons_of_mem _ hp)) hs
          rw [hstays.chain o ho'] at hp
          exact absurd hable (hclass k o hforigin p hp m (hstays.registry ▸ hm.bound) f)
    obtain ⟨i,j,hl,hn⟩ := hacc.listed hname o ho hraw
    refine ⟨i,⟨j,hl,hn⟩,?_⟩
    rintro i' ⟨j',hl',hn'⟩
    exact hacc.unique i' i j' j o hl' hl hn' hn
  · rintro ⟨i,⟨j,hl,m,hm,hf'⟩,_⟩
    obtain ⟨p,_,hp,hs⟩ := hacc.owner i j m hl hm
    rw [← hf'.unique hp] at hs
    rw [Core.attr_eq_rawget (by rw [hs]; exact toValue_ne_nil _),hs]

end Build

/-- The accounts are kept in every run of a finite acyclic graph in which no dependency can be
noted in a target's `status` or `name`, and no target inherits the status of another one. -/
theorem jobs_accounted (E : Env) (hslots : 1 ≤ E.slots) (c : Core) (hready : c.Ready)
    (hsafe : c.NewerSafe {"status","name"}) (hclass : c.IdleClasses) : JobAccounting E (updateGoals E ⟨c,[]⟩).2 := by
  have hname : "name" ∈ ({"status","name"} : Finset String) := by decide
  let B : Build E := ⟨c,{"status","name"},hready,by decide,hsafe,hslots⟩
  have h : B.Books (updateGoals E ⟨c,[]⟩).2 := B.updateGoals_books
  refine ⟨fun x hx => ?_,?_,?_⟩
  · exact Build.Kept.balanced (h.recorded.always x hx).1 hname hclass
  · exact Build.Kept.balanced ⟨h.stays,h.accounts⟩ hname hclass
  · exact List.pairwise_map.mpr (h.ids.imp fun hlt => hlt.ne')

/-- The command number 1 yields three times. -/
def Env.yielding : Env := { Env.plain with
  slots := 2
  resume := fun f _ _ n =>
    if f = .user 1 ∧ n < 3 then ⟨id,∅,.yielded (.proc 0)⟩ else ⟨id,∅,.finished⟩ }

/-- The job of the library runs, then that of the program. -/
theorem jobs_accounted_lib : ((∃ x ∈ (updateGoals Env.yielding ⟨Core.withLib,[]⟩).2.trace, x.2.count = 1) ∧
    starts (updateGoals Env.yielding ⟨Core.withLib,[]⟩).2 = [(3,2),(4,1)]) ∧
    JobAccounting Env.yielding (updateGoals Env.yielding ⟨Core.withLib,[]⟩).2 := by
  refine ⟨by decide +kernel,jobs_accounted Env.yielding (by decide) Core.withLib ready_withLib (.inl rfl) ?_⟩
  intro k o hf p hp m
  rcases registry_withLib hf.bound with rfl | rfl | rfl <;> cases hp

/-- `app` depends on targets with the names of two attributes, and one of them is `deps_newer`. -/
def Core.withNewer : Core := (([.assign "app" (.fn (.user 0)),.index "app",
  .assign "deps_newer" (.fn (.user 1)),.assign "status" (.fn (.user 2)),
  .dependsOn (.obj 3) [.str "deps_newer",.str "status"]] : List Decl).foldl
  (Session.after Env.plain) ⟨Core.init fun _ => .absent,[]⟩).core

/-- The command of `deps_newer` yields three times. The note that `status` is newer is written into
that target itself, which is then started a second time. -/
theorem newer_runs_twice :
    ¬JobAccounting Env.yielding (updateGoals Env.yielding ⟨Core.withNewer,[]⟩).2 := by
  intro h
  have hbad : ∃ x ∈ (updateGoals Env.yielding ⟨Core.withNewer,[]⟩).2.trace,
      x.2.registry "deps_newer" = .obj 4 ∧
        x.2.attr 4 "status" = Status.running.toValue ∧
        (x.2.running.lookup 1).map Job.target = some (.str "deps_newer") ∧
        (x.2.running.lookup 3).map Job.target = some (.str "deps_newer") := by decide +kernel
  obtain ⟨x,hx,hreg,hs,h₁,h₃⟩ := hbad
  have hf : Finds x.2.registry "deps_newer" 4 := ⟨hreg,by decide,by decide⟩
  have hentry : ∀ i, (x.2.running.lookup i).map Job.target = some (.str "deps_newer") →
      ∃ j, x.2.running.lookup i = some j ∧ j.Names x.2.registry 4 := by
    intro i hi
    obtain ⟨j,hj,ht⟩ := Option.map_eq_some_iff.mp hi
    exact ⟨j,hj,"deps_newer",ht,hf⟩
  obtain ⟨i,_,huniq⟩ := ((h.always x hx).running _ 4 hf).mp hs
  have he := (huniq 1 (hentry 1 h₁)).trans (huniq 3 (hentry 3 h₃)).symm
  cases he

end Presto
