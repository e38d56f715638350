import Presto.Engine.Demand
import Presto.Engine.Makefile

/-! Which targets a run starts, and in which order: the stale ones among those that are wanted, and each of them
after everything that it depends on. -/
namespace Presto
open Program Traced

/-- A target that the goals lead to and that is not up to date when the build begins. -/
def Core.Stale (c : Core) (o : ObjId) : Prop := c.Wants o ∧ ¬c.Fresh false o

namespace Build
variable {E : Env} {B : Build E} {w : World} {o p : ObjId} {n : String}

theorem touched_iff_mem : Touched w o ↔ o ∈ (starts w).map Prod.fst := by
  constructor
  · intro h
    obtain ⟨i,hi⟩ := h
    exact List.mem_map.mpr ⟨(o,i),hi,rfl⟩
  · intro h
    obtain ⟨s,hs,rfl⟩ := List.mem_map.mp h
    exact ⟨s.2,hs⟩

/-- What a run has started that ends without an error. -/
theorem touched_iff_stale (hg : B.origin.FileGraph) (hr : B.Rooted) (hE : B.origin.Confined E)
    (hwatch : ∀ k ∈ Core.watched, k ∈ B.guarded) (hA : E.flags.alwaysMake = false)
    (hret : (updateGoals E ⟨B.origin,[]⟩).1 = .ret ()) (o : ObjId) :
    Touched (updateGoals E ⟨B.origin,[]⟩).2 o ↔ B.origin.Stale o := by
  obtain ⟨hfacts,hdone⟩ := (B.freshSigns hg hr hE hwatch).updateGoals_done hr
  constructor
  · intro h
    have hwants := wants_of_touched hr h
    obtain ⟨n,ht,_⟩ := Signs.done_of_wants hfacts (hdone hret) hwants
    obtain ⟨i,hi⟩ := h
    refine ⟨hwants,fun hfresh => hfacts.sure (o,i) hi ⟨hA,?_,n,ht⟩⟩
    rw [hA]
    exact hfresh
  · intro h
    obtain ⟨hwants,hstale⟩ := h
    obtain ⟨n,ht,hn⟩ := Signs.done_of_wants hfacts (hdone hret) hwants
    cases hn with
    | source hnil => exact absurd (hnil.symm.trans ht.1) (by simp)
    | built hp hs =>
      obtain rfl := Value.obj.inj (hp.1.symm.trans ht.1)
      exact (hfacts.touched _ (.inr hs)).1
    | idle hp hstill =>
      obtain rfl := Value.obj.inj (hp.1.symm.trans ht.1)
      have hfresh : B.origin.Fresh E.flags.alwaysMake _ := hstill
      rw [hA] at hfresh
      exact absurd hfresh hstale

section
variable {l₁ l₂ : List (Event × Core)} {x y : Event × Core} {i : ℕ}

theorem mem_trace (hw : w.trace = l₁++x::l₂) : x ∈ w.trace := by
  rw [hw]
  exact List.mem_append_right _ List.mem_cons_self

/-- The statuses at an event lie between those at the events before and after it. -/
theorem advances_of_trace (hb : B.Books w) (hw : w.trace = l₁++x::l₂) :
    (∀ y ∈ l₁, x.2.Advances y.2) ∧ ∀ z ∈ l₂, z.2.Advances x.2 := by
  have hord := hb.recorded.ordered
  rw [hw] at hord
  obtain ⟨_,hrest,hall⟩ := List.pairwise_append.mp hord
  exact ⟨fun y hy => hall y hy x List.mem_cons_self,(List.pairwise_cons.mp hrest).1⟩

/-- A target with the status `updated` is not started any more. -/
theorem not_started_after (hb : B.Books w)
    (hmay : ∀ x ∈ w.trace, ∀ o i, x.1 = .start o i → x.2.rawget o "status" = .nil)
    (hw : w.trace = l₁++x::l₂) (hy : y ∈ l₁) (hp : p < B.origin.next)
    (hs : x.2.rawget p "status" = Status.updated.toValue) : ∀ i, y.1 ≠ .start p i := by
  intro i hyi
  have hmem : y ∈ w.trace := by
    rw [hw]
    exact List.mem_append_left _ hy
  have hstep := ((advances_of_trace hb hw).1 y hy).2 p
    (hp.trans_le (hb.recorded.always x (mem_trace hw)).1.1.next)
  rw [hs,hmay y hmem p i hyi] at hstep
  cases hstep.of_updated

/-- What is done is a target if it is registered. -/
theorem Signs.target_of_done {S : B.Signs} {c : Core} (h : S.done c n) (hp : B.origin.registry n = .obj p) :
    B.Target n p := by
  cases h with
  | source hnil => exact absurd (hnil.symm.trans hp) (by simp)
  | built ht _ =>
    obtain rfl := Value.obj.inj (ht.1.symm.trans hp)
    exact ht
  | idle ht _ _ =>
    obtain rfl := Value.obj.inj (ht.1.symm.trans hp)
    exact ht

/-- When a target is started, everything that it leads to is done. -/
theorem done_below {S : B.Signs} (hb : B.Books w) (hf : S.Facts w)
    (hmay : ∀ x ∈ w.trace, ∀ o i, x.1 = .start o i → x.2.rawget o "status" = .nil)
    (hw : w.trace = l₁++x::l₂) (hx : x.1 = .start o i) (hp : Relation.TransGen B.origin.Feeds o p) :
    ∃ n, B.Target n p ∧ S.done x.2 n := by
  have hmem := mem_trace hw
  have hnext : B.origin.next ≤ x.2.next := (hb.recorded.always x hmem).1.1.next
  have hdirect : ∀ {c : Core} {q r}, (∀ n ∈ B.origin.deps q, S.done c n) → B.origin.Feeds q r →
      ∃ n, B.Target n r ∧ S.done c n := by
    intro c q r hall hfeed
    obtain ⟨m,hm,hreg⟩ := hfeed
    exact ⟨m,Signs.target_of_done (hall m hm) hreg,hall m hm⟩
  induction hp with
  | single hfeed =>
    obtain ⟨_,_,_,_,hdone⟩ := hf.begun x hmem o i hx
    exact hdirect hdone hfeed
  | tail _ hfeed ih =>
    obtain ⟨n,ht,hn⟩ := ih
    cases hn with
    | source hnil => exact absurd (hnil.symm.trans ht.1) (by simp)
    | idle hq _ hdeps =>
      obtain rfl := Value.obj.inj (hq.1.symm.trans ht.1)
      exact hdirect hdeps hfeed
    | built hq hs =>
      obtain rfl := Value.obj.inj (hq.1.symm.trans ht.1)
      -- the job of the dependency was started before, and what it leads to was done then
      have hadv := (hb.recorded.always x hmem).2.2 _ (hq.lt.trans_le hnext)
      rw [hs] at hadv
      obtain ⟨⟨j,hj⟩,_⟩ := hf.touched _ (.inr hadv.of_updated)
      obtain ⟨z,hz,hze⟩ := event_of_starts hj
      have hzmem := hz
      rw [hw] at hz
      have hbefore : z ∈ l₂ := by
        obtain hz | hz := List.mem_append.mp hz
        · exact absurd hze (not_started_after hb hmay hw hz hq.lt hs j)
        · obtain rfl | hz := List.mem_cons.mp hz
          · have hnil := hmay z hmem _ j hze
            rw [hs] at hnil
            cases hnil
          · exact hz
      have hzx : z.2.Advances x.2 := (advances_of_trace hb hw).2 z hbefore
      obtain ⟨_,_,_,_,hdone⟩ := hf.begun z hzmem _ j hze
      have hznext : B.origin.next ≤ z.2.next := (hb.recorded.always z hzmem).1.1.next
      exact hdirect (fun m hm => (hdone m hm).mono hznext hzx) hfeed

end
end Build

/-- How a dependency `p` of a target stands at the start of the target: `later` are the events that follow, the
last one first, and `earlier` those before. -/
structure Core.Precedes (c : Core) (p : ObjId) (later : List (Event × Core)) (now : Core)
    (earlier : List (Event × Core)) : Prop where
  finished : ∀ y ∈ earlier, ∀ i, y.1 = .start p i → now.rawget p "status" = Status.updated.toValue
  idle : ∀ i j, now.running.lookup i = some j → ∀ k, c.rawget p "name" = .str k → j.target ≠ .str k
  barred : ∀ y ∈ later, ∀ i, y.1 ≠ .start p i

namespace Build
variable {E : Env} {B : Build E} {p o : ObjId}

theorem precedes_of_start (hg : B.origin.FileGraph) (hr : B.Rooted) (hE : B.origin.Confined E)
    (hwatch : ∀ k ∈ Core.watched, k ∈ B.guarded) {later earlier : List (Event × Core)} {x : Event × Core} {i : ℕ}
    (hw : (updateGoals E ⟨B.origin,[]⟩).2.trace = later++x::earlier) (hx : x.1 = .start o i)
    (hp : Relation.TransGen B.origin.Feeds o p) : B.origin.Precedes p later x.2 earlier := by
  let S := B.freshSigns hg hr hE hwatch
  have hb := B.updateGoals_books
  have hf : S.Facts (updateGoals E ⟨B.origin,[]⟩).2 := (S.updateGoals_done hr).1
  have hmay := mayStart_of_start hr
  obtain ⟨n,ht,hn⟩ := done_below hb hf (fun x hx o i he => (hmay x hx o i he).unsettled) hw hx hp
  have hmem := mem_trace hw
  have hstarted : ∀ y ∈ (updateGoals E ⟨B.origin,[]⟩).2.trace, ∀ j, y.1 = .start p j → ¬B.origin.Fresh E.flags.alwaysMake p := by
    intro y hy j hye hfresh
    have hmem : (p,j) ∈ starts (updateGoals E ⟨B.origin,[]⟩).2 := List.mem_filterMap.mpr ⟨y,hy,by rw [hye]; rfl⟩
    cases hA : E.flags.alwaysMake with
    | false => exact hf.sure (p,j) hmem ⟨hA,hfresh,n,ht⟩
    | true =>
      obtain ⟨hcmd,_,_⟩ := hfresh
      have htrue := (hmay y hy p j hye).command
      rw [hcmd hA] at htrue
      cases htrue
  have hcases : B.origin.Fresh E.flags.alwaysMake p ∨ x.2.rawget p "status" = Status.updated.toValue := by
    cases hn with
    | source hnil => exact absurd (hnil.symm.trans ht.1) (by simp)
    | built hq hs =>
      obtain rfl := Value.obj.inj (hq.1.symm.trans ht.1)
      exact .inr hs
    | idle hq hstill =>
      obtain rfl := Value.obj.inj (hq.1.symm.trans ht.1)
      exact .inl hstill
  constructor
  · intro y hy j hye
    have hymem : y ∈ (updateGoals E ⟨B.origin,[]⟩).2.trace := by
      rw [hw]
      exact List.mem_append_right _ (List.mem_cons_of_mem _ hy)
    exact hcases.resolve_left (hstarted y hymem j hye)
  · intro j job hl k hk htarget
    obtain ⟨_,_,_,hjobs,_⟩ := hf.begun x hmem o i hx
    obtain ⟨q,hrun,hsure,hstatus⟩ := hjobs j job hl
    obtain ⟨k',hk',_,hfinds⟩ := hrun.name
    obtain ⟨k₀,hk₀,hfinds₀⟩ := B.ready.named n p ht.1 ht.2
    obtain rfl := Value.str.inj (hk₀.symm.trans hk)
    obtain rfl := Value.str.inj (htarget.symm.trans hk')
    obtain rfl := hfinds₀.unique hfinds
    obtain hfresh | hupdated := hcases
    · cases hA : E.flags.alwaysMake with
      | false => exact hsure ⟨hA,hfresh,n,ht⟩
      | true =>
        obtain ⟨hcmd,_,_⟩ := hfresh
        have hfalse := hcmd hA
        rw [hrun.command] at hfalse
        cases hfalse
    · rw [hupdated] at hstatus
      cases hstatus
  · intro y hy j hye
    have hymem : y ∈ (updateGoals E ⟨B.origin,[]⟩).2.trace := by
      rw [hw]
      exact List.mem_append_left _ hy
    have hupdated := hcases.resolve_left (hstarted y hymem j hye)
    exact not_started_after hb (fun x hx o i he => (hmay x hx o i he).unsettled) hw hy ht.lt hupdated j hye

end Build

/-- A run without `-B` that ends without an error has started every stale target once, and nothing else. -/
theorem starts_exactly_stale (E : Env) (hslots : 1 ≤ E.slots) (c : Core) (hc : c.FileGraph) (hE : c.Confined E)
    (hA : E.flags.alwaysMake = false) (hret : (updateGoals E ⟨c,[]⟩).1 = .ret ()) :
    ((starts (updateGoals E ⟨c,[]⟩).2).map Prod.fst).Nodup ∧
      ∀ o, o ∈ (starts (updateGoals E ⟨c,[]⟩).2).map Prod.fst ↔ c.Stale o := by
  have hr := hc.rooted hslots
  refine ⟨(hc.build hslots).updateGoals_books.once hr.commands,fun o => ?_⟩
  rw [← Build.touched_iff_mem]
  exact Build.touched_iff_stale (B := hc.build hslots) hc hr hE (hc.guarded hslots) hA hret o

theorem starts_exactly_stale_lib : ((starts (updateGoals Env.touching ⟨Core.withLib,[]⟩).2).map Prod.fst).Nodup ∧
    ∀ o, o ∈ (starts (updateGoals Env.touching ⟨Core.withLib,[]⟩).2).map Prod.fst ↔ Core.withLib.Stale o :=
  starts_exactly_stale Env.touching (by decide) Core.withLib fileGraph_withLib (tidy_touching.confined _) rfl
    (by decide +kernel)

/-- Slots, orders and the interleaving of the jobs have no influence on what is started. -/
theorem starts_perm (E E' : Env) (hslots : 1 ≤ E.slots) (hslots' : 1 ≤ E'.slots) (c : Core) (hc : c.FileGraph)
    (hE : c.Confined E) (hE' : c.Confined E') (hA : E.flags.alwaysMake = false) (hA' : E'.flags.alwaysMake = false)
    (hret : (updateGoals E ⟨c,[]⟩).1 = .ret ()) (hret' : (updateGoals E' ⟨c,[]⟩).1 = .ret ()) :
    ((starts (updateGoals E ⟨c,[]⟩).2).map Prod.fst).Perm ((starts (updateGoals E' ⟨c,[]⟩).2).map Prod.fst) := by
  have hr := hc.rooted hslots
  have hr' := hc.rooted hslots'
  have hnodup := (hc.build hslots).updateGoals_books.once hr.commands
  have hnodup' := (hc.build hslots').updateGoals_books.once hr'.commands
  apply (List.perm_ext_iff_of_nodup hnodup hnodup').mpr
  intro o
  change o ∈ (starts (updateGoals E ⟨c,[]⟩).2).map Prod.fst ↔ o ∈ (starts (updateGoals E' ⟨c,[]⟩).2).map Prod.fst
  rw [← Build.touched_iff_mem,← Build.touched_iff_mem]
  exact (Build.touched_iff_stale (B := hc.build hslots) hc hr hE (hc.guarded hslots) hA hret o).trans
    (Build.touched_iff_stale (B := hc.build hslots') hc hr' hE' (hc.guarded hslots') hA' hret' o).symm

theorem starts_perm_lib : ((starts (updateGoals Env.touching ⟨Core.withLib,[]⟩).2).map Prod.fst).Perm
    ((starts (updateGoals { Env.touching with slots := 4 } ⟨Core.withLib,[]⟩).2).map Prod.fst) :=
  starts_perm Env.touching { Env.touching with slots := 4 } (by decide) (by decide) Core.withLib fileGraph_withLib
    (tidy_touching.confined _) (tidy_touching.confined _) rfl rfl (by decide +kernel)
    (by decide +kernel)

/-- In every run each start comes after all that the target depends on: what has been started of it has finished,
none of it runs, and none of it is started later. -/
theorem starts_in_order (E : Env) (hslots : 1 ≤ E.slots) (c : Core) (hc : c.FileGraph) (hE : c.Confined E) :
    ∀ later x earlier, (updateGoals E ⟨c,[]⟩).2.trace = later++x::earlier → ∀ o i, x.1 = .start o i →
      ∀ p, Relation.TransGen c.Feeds o p → c.Precedes p later x.2 earlier := by
  intro later x earlier hw o i hx p hp
  exact Build.precedes_of_start (B := hc.build hslots) hc (hc.rooted hslots) hE (hc.guarded hslots) hw hx hp

/-- When `app` is started `lib` has finished. -/
theorem starts_in_order_lib : ∃ later x earlier, (updateGoals Env.touching ⟨Core.withLib,[]⟩).2.trace = later++x::earlier ∧
    x.1 = .start 3 2 ∧ Core.withLib.Precedes 4 later x.2 earlier := by
  have hstart : ∃ x ∈ (updateGoals Env.touching ⟨Core.withLib,[]⟩).2.trace, x.1 = .start 3 2 := by decide +kernel
  obtain ⟨x,hx,hs⟩ := hstart
  obtain ⟨later,earlier,hw⟩ := List.append_of_mem hx
  have hfeeds : Core.withLib.Feeds 3 4 := ⟨"lib",by decide +kernel,rfl⟩
  exact ⟨later,x,earlier,hw,hs,starts_in_order Env.touching (by decide) Core.withLib fileGraph_withLib
    (tidy_touching.confined _) later x earlier hw 3 2 hs 4 (.single hfeeds)⟩

end Presto
