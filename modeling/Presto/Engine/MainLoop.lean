import Presto.Engine.Termination

/-! The main loop comes to its end if every command does. -/
namespace Presto
open Program Traced

/-- The states in which the main loop begins a pass. -/
inductive Loops (E : Env) (c : Core) : World → Prop
  | first {w : World} : defaultGoals ⟨c,[]⟩ = (.ret (),w) → Loops E c w
  | again {w w' : World} : Loops E c w → goalPass E w = (.ret true,w') → Loops E c w'

/-- The states in which the main loop asks for a goal, with the goals that a pass still has. -/
inductive Asks (E : Env) (c : Core) : List String → World → Prop
  | pass {w w' : World} {order : List String} : Loops E c w →
    (quietly (enumerate E w.now.goals) : Engine (List String)) w = (.ret order,w') → Asks E c order w'
  | next {w w' : World} {name : String} {l : List String} {k k' : ℕ} : Asks E c (name::l) w →
    goalStep E name k w = (.ret (.next k'),w') → Asks E c l w'

/-- `pcall(goal.bring_up_to_date,goal)` for the target `goal` with the name `name`. -/
def askGoal (E : Env) (name : String) : Engine (Except Value Value) := do
  let v ← quietly (targetIndex name)
  let goal ← quietly (asTable v)
  visit E (bringUpToDate E E.stack) goal

/-- The commands are functions, every target has the method of `__target`, and no target is
registered under the name of an attribute that this concerns. -/
structure Core.Ordinary (c : Core) : Prop where
  ready : c.Ready
  newer : c.registry "deps_newer" = .nil
  callable : c.Callable
  method : ∀ m o, c.registry m = .obj o → ∀ p ∈ o::(c.heap o).chain,
    c.rawget p "bring_up_to_date" = .nil

namespace Core.Ordinary
variable {E : Env} {c : Core}

/-- The build of an ordinary graph, with all pinned fields protected. -/
def build (h : c.Ordinary) (hslots : 1 ≤ E.slots) : Build E :=
  ⟨c,{"status","name","command","bring_up_to_date"},h.ready,by decide,.inl h.newer,hslots⟩

theorem commands (h : c.Ordinary) (hslots : 1 ≤ E.slots) : (h.build hslots).Commands :=
  ⟨show "command" ∈ ({"status","name","command","bring_up_to_date"} : Finset String) by decide,h.callable⟩

theorem methods (h : c.Ordinary) (hslots : 1 ≤ E.slots) : (h.build hslots).Method :=
  ⟨show "name" ∈ ({"status","name","command","bring_up_to_date"} : Finset String) by decide,
    show "bring_up_to_date" ∈ ({"status","name","command","bring_up_to_date"} : Finset String) by decide,
    h.method⟩

end Core.Ordinary

theorem ordinary_withLib : Core.withLib.Ordinary where
  ready := ready_withLib
  newer := rfl
  callable := by
    refine ⟨rfl,fun m o hm p hp => ?_⟩
    obtain rfl | rfl | rfl := registry_withLib hm
    · obtain rfl := List.mem_singleton.mp hp
      exact .inl ⟨.user 0,rfl⟩
    · obtain rfl := List.mem_singleton.mp hp
      exact .inl ⟨.user 1,rfl⟩
    · obtain rfl := List.mem_singleton.mp hp
      exact .inr rfl
  method _ _ _ p _ := lacks_withLib _ (by decide) p

namespace Build
variable {E : Env} {B : Build E} {w w' : World} {R : ℕ}

/-- A goal answers `running` only while some job runs. -/
theorem askGoal_waits (hm : B.Method) (h : B.Free w) (name : String) :
    wp (askGoal E name) (fun o w' => o = .ret (.ok Status.running.toValue) → 0 < w'.now.count) w := by
  unfold askGoal
  rw [← wp_bind_assoc]
  apply wp_bind_of (lookupGoal_free name h)
  · rintro goal w ⟨hf,hk⟩
    apply wp_mono (visit_goal hf (hk goal rfl))
    rintro (r | e | _) w' hv hret
    · exact hv.2.2.2 hm (Outcome.ret.inj hret)
    · cases hret
    · cases hret
  · exact fun _ _ _ hret => by cases hret
  · exact fun _ _ hret => by cases hret

theorem Free.loops (h : Loops E B.origin w) : B.Free w := by
  induction h with
  | first hr =>
    have hb := back_of_winds (B := B) winds_defaultGoals (free_origin B)
    unfold wp at hb
    rw [hr] at hb
    exact ⟨hb.1,hb.2 ⟨(),rfl⟩⟩
  | again _ hr ih =>
    have hb := goalPass_back ih
    unfold wp at hb
    rw [hr] at hb
    exact ⟨hb.1,hb.2 ⟨true,rfl⟩⟩

theorem Free.asks {l : List String} (h : Asks E B.origin l w) : B.Free w := by
  induction h with
  | @pass w w' order hl hr =>
    have hf := Free.loops hl
    have hm : Moves B.Winds (quietly (enumerate E w.now.goals) : Engine (List String)) :=
      winds_of_rests (rests_quietly (idles_enumerate E _))
    have hb := back_of_winds hm hf
    unfold wp at hb
    rw [hr] at hb
    exact ⟨hb.1,hb.2 ⟨_,rfl⟩⟩
  | @next w w' name l k k' _ hr ih =>
    have hb := goalStep_ended name k ih
    unfold wp at hb
    rw [hr] at hb
    exact hb

/-- What the main loop has left to do. -/
def size (R : ℕ) (w : World) : ℤ := w.now.goals.card+cost R w

theorem size_of_burns (h : Burns R w w') : size R w' ≤ size R w ∧
    (w'.now.count ≠ w.now.count → size R w' < size R w) := by
  have hg := h.goals
  have hc := h.cost
  unfold size
  rw [hg]
  exact ⟨by omega,fun hne => by have := h.count hne; omega⟩

theorem Drains.cost (h : B.Drains R w w') : cost R w' ≤ cost R w := by
  have hl := h.left
  unfold Presto.cost
  rw [h.starts]
  omega

/-- The goals, the cost and the count after one goal, when the step comes back. -/
structure GoalDone (B : Build E) (R : ℕ) (w : World) (name : String) (w' : World) : Prop where
  live : B.Live w'
  goals : w'.now.goals = w.now.goals ∨ w'.now.goals = w.now.goals.erase name
  cost : cost R w' ≤ cost R w
  size : size R w' ≤ size R w
  count : w'.now.count ≠ w.now.count → Build.size R w' < Build.size R w
  progress : name ∈ w.now.goals → Build.size R w' < Build.size R w ∨ 0 < w'.now.count

theorem Live.of_burns (h : B.Live w) (hb : B.Books w') (hburns : Burns R w w') : B.Live w' := by
  refine ⟨hb,?_⟩
  have h₁ := h.numbers
  have h₂ := hburns.pos
  omega

/-- The cost is never negative but for the starts, of which there is one for each target. -/
theorem Live.starts_le (h : B.Live w) (hc : B.Commands) : (starts w).length ≤ B.origin.next := by
  have hnodup := h.once hc
  have hsub : ((starts w).map Prod.fst).toFinset ⊆ Finset.range B.origin.next := by
    intro o ho
    obtain ⟨s,hs,rfl⟩ := List.mem_map.mp (List.mem_toFinset.mp ho)
    exact Finset.mem_range.mpr (h.targets hc s hs)
  have hcard := Finset.card_le_card hsub
  rwa [List.toFinset_card_of_nodup hnodup,List.length_map,Finset.card_range] at hcard

theorem Live.left_le (h : B.Live w) (hc : B.Commands) (hcost : cost R w ≤ 0) :
    w.now.left R ≤ (R+1)*B.origin.next := by
  have hle := h.starts_le hc
  unfold cost at hcost
  have hmul : (R+1)*(starts w).length ≤ (R+1)*B.origin.next := Nat.mul_le_mul_left _ hle
  have hleft : (w.now.left R : ℤ) ≤ ((R+1)*(starts w).length : ℕ) := by push_cast; omega
  exact (Int.ofNat_le.mp hleft).trans hmul

/-- Enough passes for the dispatcher at any time. -/
def Fueled (B : Build E) (R : ℕ) : Prop := 3*((R+1)*B.origin.next)+3 ≤ E.fuel

/-- Taking a goal off the list. -/
theorem size_erase {name : String} (hmem : name ∈ w.now.goals) (hg : w'.now.goals = w.now.goals.erase name)
    (hc : cost R w' ≤ cost R w) : size R w' < size R w := by
  have hcard := Finset.card_erase_add_one hmem
  unfold size
  rw [hg]
  omega

/-- What the report on a goal leaves: the goal is off the list, or it is still running. -/
structure Reported (B : Build E) (R : ℕ) (w : World) (name : String) (status : Value) (w' : World) : Prop where
  live : B.Live w'
  cost : Presto.cost R w' ≤ Presto.cost R w
  count : w'.now.count = w.now.count
  goals : w'.now.goals = w.now.goals.erase name ∨ status = Status.running.toValue ∧ w' = w

/-- Nothing is resumed. -/
theorem calm_comes {m : Engine α} (hm : Serves Calm m) (hw : Moves B.Winds m) (h : B.Live w) :
    wp m (comesPost fun _ w' => B.Drains R w w' ∧ w'.now.count = w.now.count) w := by
  obtain ⟨ho,hd⟩ := drains_of_calm (R := R) hm hw h
  exact haltsPost.comes ⟨ho,hd,(hm w).1.count⟩

theorem exitGoal_comes (hR : B.Limit R) (hfuel : Fueled B R) (hc : B.Commands) (h : B.Live w) (hcost : cost R w ≤ 0) :
    wp (makeExit E E.fuel) (comesPost fun _ w' => B.Drains R w w' ∧ w'.now.count = w.now.count) w := by
  have hleft := h.left_le hc hcost
  have hexit := (dispatch_drain_exit_come hR E.fuel h).2.2 (by unfold Fueled at hfuel; omega)
  apply wp_mono (wp_and hexit (makeExit_returns E.fuel w))
  rintro (_ | e | _) w' ⟨⟨ho,hd⟩,hret⟩
  · exact ⟨hd,by rw [hret rfl]⟩
  · trivial
  · exact absurd rfl ho

section Report
variable {name : String} {status : Value}

theorem removeGoal_reported (hd : B.Drains R w w' ∧ w'.now.count = w.now.count) :
    wp (quietly (Prog.modify fun c : Core => { c with goals := c.goals.erase name }) : Engine Unit)
      (comesPost fun _ => B.Reported R w name status) w' := by
  obtain ⟨hd,hcount⟩ := hd
  have hb := hd.live.toBooks.idles (c := { w'.now with goals := w'.now.goals.erase name })
    (Core.idles_of_heap rfl rfl rfl rfl rfl rfl rfl)
  refine ⟨⟨hb,hd.live.numbers⟩,hd.cost,hcount,.inl ?_⟩
  change w'.now.goals.erase name = _
  rw [hd.goals]

theorem report_calm {m : Engine Unit} (hm : Serves Calm m) (hw : Moves B.Winds m) (h : B.Live w) :
    wp (m >>= fun _ => quietly (Prog.modify fun c : Core => { c with goals := c.goals.erase name }))
      (comesPost fun _ => B.Reported R w name status) w :=
  wp_bind_comes (calm_comes hm hw h) fun _ _ hd => removeGoal_reported hd

/-- How the report on a goal ends. -/
theorem reportGoal_done (hR : B.Limit R) (hfuel : Fueled B R) (hc : B.Commands) (h : B.Live w)
    (hcost : cost R w ≤ 0) (goal : ObjId) :
    wp (reportGoal E goal name status) (comesPost fun _ => B.Reported R w name status) w := by
  unfold reportGoal
  rw [wp_ite,wp_ite,wp_ite]
  split_ifs with h₁ h₂ h₃
  · exact ⟨h,le_rfl,rfl,.inr ⟨h₁,rfl⟩⟩
  · have hm : Serves Calm (reportFailure E goal name) := by
      refine serves_bind (serves_ite (serves_pure _) (calm_message _)) fun _ => ?_
      exact serves_bind calm_core fun c => calm_messageIf _
    have hw : Moves B.Winds (reportFailure E goal name) := by
      refine moves_bind (moves_ite (moves_pure _) (winds_message _)) fun _ => ?_
      exact moves_bind (winds_of_rests rests_core) fun c => winds_messageIf _
    apply wp_bind_comes (calm_comes (R := R) hm hw h)
    rintro _ w₁ ⟨hd,hcount⟩
    apply wp_bind_comes (exitGoal_comes hR hfuel hc hd.live (hd.cost.trans hcost))
    rintro _ w₂ ⟨hd',hsame⟩
    exact removeGoal_reported ⟨hd.trans hd',hsame.trans hcount⟩
  · exact report_calm (calm_message _) (winds_message _) h
  · exact report_calm (calm_message _) (winds_message _) h

end Report

theorem burns_lookupGoal (name : String) : Serves (Burns R) (do
    let v ← quietly (targetIndex name)
    quietly (asTable v) : Engine ObjId) :=
  serves_bind ((calm_quietly (calm_targetIndex name)).mono (burns_of_calm R)) fun v =>
    (calm_quietly (calm_asTable v)).mono (burns_of_calm R)

theorem burns_goalStatus (goal : ObjId) (r : Except Value Value) :
    Serves (Burns R) (goalStatus goal r) := by
  cases r with
  | ok s => exact serves_pure _
  | error e =>
    refine serves_bind ((calm_setField goal _ _).mono (burns_of_calm R)) fun _ => serves_pure _

/-- What one goal leaves to do, after it has been brought up to date in `w₁`. -/
theorem Reported.goalDone {name : String} {status : Value} {w₁ : World} (h : B.Reported R w₁ name status w')
    (hb : Burns R w w₁) (hwait : status = Status.running.toValue → 0 < w₁.now.count) : GoalDone B R w name w' := by
  obtain ⟨hl,hcost,hsame,hgoals⟩ := h
  obtain ⟨hsize,hcount⟩ := size_of_burns hb
  rcases hgoals with hg | ⟨hs,rfl⟩
  · have hsize' : size R w' ≤ size R w₁ := by
      have hle := Finset.card_erase_le (s := w₁.now.goals) (a := name)
      unfold size
      rw [hg]
      omega
    refine ⟨hl,.inr (by rw [hg,hb.goals]),hcost.trans hb.cost,hsize'.trans hsize,fun hne => ?_,fun hmem => .inl ?_⟩
    · rw [hsame] at hne
      exact hsize'.trans_lt (hcount hne)
    · rw [← hb.goals] at hmem
      exact (size_erase hmem hg hcost).trans_le hsize
  · exact ⟨hl,.inl hb.goals,hb.cost,hsize,hcount,fun _ => .inr (hwait hs)⟩

/-- One goal of a pass. -/
theorem goalStep_done (hR : B.Limit R) (hfuel : Fueled B R) (hc : B.Commands) (hm : B.Method)
    (hfree : B.Free w) (h : B.Live w) (hcost : cost R w ≤ 0) (name : String) (k : ℕ) :
    wp (goalStep E name k) (comesPost fun _ => GoalDone B R w name) w := by
  unfold goalStep
  rw [← wp_bind_assoc]
  have hlook : wp (do
      let v ← quietly (targetIndex name)
      quietly (asTable v) : Engine ObjId) (comesPost fun goal w₁ =>
        (B.Free w₁ ∧ (B.Knows w₁ goal ∨ goal = mtTable)) ∧ Burns R w w₁) w := by
    apply wp_mono (wp_and (lookupGoal_free name hfree) (R := fun o w' => Burns R w w' ∧ o ≠ .diverge)
      (burns_lookupGoal name w))
    rintro (goal | e | _) w₁ ⟨⟨hf,hk⟩,hb,ho⟩
    · exact ⟨⟨hf,hk goal rfl⟩,hb⟩
    · trivial
    · exact absurd rfl ho
  apply wp_bind_comes hlook
  rintro goal w₁ ⟨⟨hf,hk⟩,hb₁⟩
  have hvisit : wp (visit E (bringUpToDate E E.stack) goal) (comesPost fun r w₂ =>
      B.GoalVisited goal (.ret r) w₂ ∧ Burns R w₁ w₂) w₁ := by
    apply wp_mono (wp_and (visit_goal hf hk) (R := fun o w' => Burns R w₁ w' ∧ o ≠ .diverge)
      (serves_visit E (burns_of_calm R) (burns_bringUpToDate E.stack) goal w₁))
    rintro (r | e | _) w₂ ⟨hv,hb,ho⟩
    · exact ⟨hv,hb⟩
    · trivial
    · exact absurd rfl ho
  apply wp_bind_comes hvisit
  rintro r w₂ ⟨hv,hb₂⟩
  have hstatus : wp (goalStatus goal r) (comesPost fun status w₃ => (B.Books w₃ ∧
      (status = Status.running.toValue → 0 < w₃.now.count)) ∧ Burns R w₂ w₃) w₂ := by
    have hroom := (goalStatus_room hv).1
    obtain ⟨hb,ho⟩ := burns_goalStatus (R := R) goal r w₂
    cases r with
    | ok v =>
      refine ⟨⟨hroom,?_⟩,hb⟩
      rintro rfl
      exact hv.2.2.2 hm rfl
    | error e => exact ⟨⟨hroom,fun hs => by cases hs⟩,hb⟩
  apply wp_bind_comes hstatus
  rintro status w₃ ⟨⟨hbooks,hwait⟩,hb₃⟩
  have hb : Burns R w w₃ := trans_of (Burns R) hb₁ (trans_of (Burns R) hb₂ hb₃)
  apply wp_bind_comes (reportGoal_done hR hfuel hc (h.of_burns hbooks hb) (hb.cost.trans hcost) goal)
  intro _ w₄ hrep
  rw [wp_bind_core,wp_ite]
  split_ifs
  · exact hrep.goalDone hb hwait
  · exact hrep.goalDone hb hwait

/-- The state of a pass after some of its goals. -/
structure Passing (B : Build E) (R : ℕ) (w₀ : World) (k : ℕ) (w : World) : Prop where
  live : B.Live w
  cost : cost R w ≤ 0
  size : size R w ≤ size R w₀
  count : w.now.count ≠ w₀.now.count → Build.size R w < Build.size R w₀
  progress : Build.size R w < Build.size R w₀ ∨ k = 0 ∨ 0 < w.now.count

theorem Passing.next {w₀ : World} {name : String} {k k' : ℕ} (h : Passing B R w₀ k w) (hmem : name ∈ w.now.goals)
    (hd : GoalDone B R w name w') : Passing B R w₀ k' w' := by
  refine ⟨hd.live,hd.cost.trans h.cost,hd.size.trans h.size,fun hne => ?_,?_⟩
  · by_cases hsame : w'.now.count = w.now.count
    · exact hd.size.trans_lt (h.count (by rwa [← hsame]))
    · exact (hd.count hsame).trans_le h.size
  · rcases hd.progress hmem with hlt | hpos
    · exact .inl (hlt.trans_le h.size)
    · exact .inr (.inr hpos)

/-- The goals of a pass; those that are still to come are on the list. -/
theorem goals_pass (hR : B.Limit R) (hfuel : Fueled B R) (hc : B.Commands) (hm : B.Method) {w₀ : World}
    {order : List String} (hnodup : order.Nodup) (hmem : ∀ m ∈ order, m ∈ w.now.goals) (hfree : B.Free w)
    (h : Passing B R w₀ 0 w) :
    wp (forEach (goalStep E) order 0) (comesPost fun x w' => ∀ k, x = .fell k → Passing B R w₀ k w') w := by
  apply wp_forEach fun l k w' => B.Free w' ∧ Passing B R w₀ k w' ∧ l.Nodup ∧ ∀ m ∈ l, m ∈ w'.now.goals
  · rintro name l k w' ⟨hf,hp,hnodup,hmem⟩
    have hname := hmem name List.mem_cons_self
    apply wp_mono (wp_and (goalStep_ended name k hf) (goalStep_done hR hfuel hc hm hf hp.live hp.cost name k))
    rintro ((k' | k' | x) | e | _) w'' ⟨hend,hd⟩
    · refine ⟨hend,hp.next hname hd,hnodup.of_cons,fun m hm => ?_⟩
      have hm' := hmem m (List.mem_cons_of_mem _ hm)
      rcases hd.goals with hg | hg <;> rw [hg]
      · exact hm'
      · refine Finset.mem_erase.mpr ⟨?_,hm'⟩
        rintro rfl
        exact (List.nodup_cons.mp hnodup).1 hm
    · rintro _ ⟨rfl⟩
      exact hp.next hname hd
    · cases x
    · trivial
    · exact hd
  · rintro k w' ⟨_,hp,_⟩ _ ⟨rfl⟩
    exact hp
  · exact ⟨hfree,h,hnodup,hmem⟩

/-- The jobs are resumed when the goals have not moved. -/
theorem dispatchRunning_done (hR : B.Limit R) (hfuel : Fueled B R) (hc : B.Commands) {w₀ : World} {k : ℕ}
    (h : Passing B R w₀ k w) : wp (dispatchRunning E w₀.now.count) (comesPost fun _ w' =>
      B.Live w' ∧ cost R w' ≤ 0 ∧ (k ≠ 0 → size R w' < size R w₀)) w := by
  have hleft := h.live.left_le hc h.cost
  unfold dispatchRunning
  rw [wp_bind_core,wp_ite]
  split_ifs with hd
  · apply wp_mono ((dispatch_drain_exit_come hR E.fuel h.live).1 (by unfold Fueled at hfuel; omega))
    rintro o w' ⟨⟨ho,hdr⟩,hlt⟩
    refine haltsPost.comes ⟨ho,hdr.live,hdr.cost.trans h.cost,fun _ => ?_⟩
    have hlt := hlt hd.1
    have hsize := h.size
    unfold size cost at hsize ⊢
    rw [hdr.goals,hdr.starts]
    omega
  · refine ⟨h.live,h.cost,fun hk => ?_⟩
    rcases h.progress with hlt | h0 | hpos
    · exact hlt
    · exact absurd h0 hk
    · exact h.count fun heq => hd ⟨hpos,.inl heq⟩

/-- A pass that has had a goal leaves less to do. -/
theorem goalPass_done (hR : B.Limit R) (hfuel : Fueled B R) (hc : B.Commands) (hm : B.Method)
    (hfree : B.Free w) (h : B.Live w) (hcost : cost R w ≤ 0) :
    wp (goalPass E) (comesPost fun b w' => B.Live w' ∧ cost R w' ≤ 0 ∧ (b = true → size R w' < size R w)) w := by
  unfold goalPass
  rw [wp_bind_core]
  set w₀ : World := { w with now := { w.now with tick := w.now.tick+1 } }
  have hm' : Moves B.Winds (quietly (enumerate E w.now.goals) : Engine (List String)) :=
    winds_of_rests (rests_quietly (idles_enumerate E _))
  have hfree₀ : B.Free w₀ := ⟨(hm' w hfree.1).1,hfree.2⟩
  have hstart : Passing B R w 0 w₀ :=
    ⟨⟨hfree₀.1,h.numbers⟩,hcost,le_rfl,fun hne => absurd rfl hne,.inr (.inl rfl)⟩
  refine wp_bind_ret (show quietly (enumerate E w.now.goals) w =
    (.ret (E.names.order w.now.tick w.now.goals),w₀) from rfl) ?_
  apply wp_bind_comes (goals_pass hR hfuel hc hm (E.names.nodup _ _)
    (fun m hm => (E.names.mem_order _ _ m).mp hm) hfree₀ hstart)
  rintro (k | x) w₁ hp
  · apply wp_bind_comes (dispatchRunning_done hR hfuel hc (hp k rfl))
    rintro _ w₂ ⟨hl,hcost',hlt⟩
    exact ⟨hl,hcost',fun hb => hlt (by simpa using hb)⟩
  · cases x

/-- The passes of the main loop are bounded by what there is to do. -/
theorem passes_end (hR : B.Limit R) (hfuel : Fueled B R) (hc : B.Commands) (hm : B.Method) (n : ℕ)
    (hfree : B.Free w) (h : B.Live w) (hcost : cost R w ≤ 0)
    (hn : size R w+((R+1)*B.origin.next : ℕ) < n) :
    wp (repeatWhile (goalPass E) n) (comesPost fun _ _ => True) w := by
  induction n generalizing w with
  | zero =>
    exfalso
    have hmul : (R+1)*(starts w).length ≤ (R+1)*B.origin.next :=
      Nat.mul_le_mul_left _ (h.starts_le hc)
    have hz : ((R : ℤ)+1)*(starts w).length ≤ ((R+1)*B.origin.next : ℕ) := by exact_mod_cast hmul
    unfold size cost at hn
    omega
  | succ n ih =>
    unfold repeatWhile
    apply wp_bind_of (wp_and (goalPass_back hfree) (goalPass_done hR hfuel hc hm hfree h hcost))
    · rintro b w' ⟨hback,hl,hcost',hlt⟩
      cases b
      · trivial
      · have hlt := hlt rfl
        exact ih ⟨hback.1,hback.2 ⟨_,rfl⟩⟩ hl hcost' (by push_cast at hn ⊢; omega)
    · exact fun _ _ _ => trivial
    · exact fun _ hw => hw.2

/-- The command of a table, where it is a function. -/
def commandOf (c : Core) (p : ObjId) : Option Fn :=
  match c.rawget p "command" with
  | .fn f => some f
  | _ => none

/-- The number of resumes after which the commands of the makefile are dead has a bound: there
are finitely many commands, names and job numbers. -/
theorem exists_limit (E : Env) (c : Core)
    (hdies : ∀ f name i, ∃ n, ∀ v, (E.resume f name i n).signal ≠ .yielded v) :
    ∃ R, ∀ fuel (B : Build { E with fuel := fuel }), B.origin = c → B.Commands → "name" ∈ B.guarded →
      B.Limit R := by
  choose death hdeath using hdies
  let last (x : ObjId × ObjId × ℕ) : ℕ :=
    (commandOf c x.1).elim 0 fun f => death f (c.rawget x.2.1 "name") x.2.2
  let jobs := Finset.range c.next ×ˢ Finset.range c.next ×ˢ Finset.range (c.pos+c.next+1)
  refine ⟨jobs.sup last+1,?_⟩
  rintro fuel B rfl hc hname w h i j hl
  apply Nat.lt_succ_of_le
  have hj := h.jobs i j hl
  obtain ⟨p,hp,hf⟩ := hj.command hc
  obtain ⟨o,ho,hn⟩ := hj.target hc hname
  have hi : i < B.origin.pos+B.origin.next+1 := by
    have h₁ := h.accounts.ids i j hl
    have h₂ := h.numbers
    have h₃ := h.starts_le hc
    omega
  have hmem : (p,o,i) ∈ jobs := by simp [jobs,hp,ho,hi]
  have hlast : last (p,o,i) = death j.command j.target i := by
    simp [last,commandOf,hf,hn]
  refine le_trans ?_ ((hlast ▸ Finset.le_sup hmem : death j.command j.target i ≤ jobs.sup last))
  by_contra hlt
  obtain ⟨v,hv⟩ := hj.yielded _ (not_le.mp hlt)
  exact hdeath j.command j.target i v hv

end Build

/-- Every build of the graph comes back, and no goal waits for nothing. -/
structure BuildEnds (E : Env) (c : Core) : Prop where
  ends : ∃ N, ∀ fuel ≥ N, (updateGoalsP { E with fuel := fuel } ⟨c,[]⟩).1 ≠ .diverge
  waits : ∀ name l w w', Asks E c (name::l) w →
    askGoal E name w = (.ret (.ok Status.running.toValue),w') → 0 < w'.now.count

namespace Build
variable {E : Env} {B : Build E} {w : World} {R : ℕ}

theorem defaultGoals_done (h : B.Live w) : wp defaultGoals (comesPost fun _ w' =>
    B.Live w' ∧ cost R w' = cost R w ∧ w'.now.goals.card ≤ max w.now.goals.card 1) w := by
  unfold defaultGoals
  rw [wp_bind_core,wp_ite,wp_ite]
  split_ifs
  · exact ⟨h,rfl,le_max_left _ _⟩
  · trivial
  · cases w.now.registry "__default" with
    | obj o =>
      rw [wp_bind_asTable]
      split
      · refine ⟨⟨h.toBooks.idles ?_,h.numbers⟩,rfl,?_⟩
        · exact Core.idles_of_heap rfl rfl rfl rfl rfl rfl rfl
        · exact le_max_right _ _
      · trivial
    | _ => trivial

/-- With enough passes `update_goals_p` comes back. -/
theorem updateGoalsP_comes (hR : B.Limit R) (hc : B.Commands) (hm : B.Method)
    (hfuel : 3*((R+1)*B.origin.next)+3+max B.origin.goals.card 1 < E.fuel) (hfree : B.Free w) (hlive : B.Live w)
    (hzero : cost R w = 0) (hgoals : w.now.goals = B.origin.goals) :
    wp (updateGoalsP E) (comesPost fun _ _ => True) w := by
  unfold updateGoalsP
  apply wp_bind_of (wp_and (back_of_winds winds_defaultGoals hfree) (defaultGoals_done hlive))
  · rintro _ w ⟨hback,hl,hcost,hcard⟩
    rw [hzero] at hcost
    have hpasses := passes_end hR (show Fueled B R by unfold Fueled; omega) hc hm E.fuel
      ⟨hback.1,hback.2 ⟨(),rfl⟩⟩ hl hcost.le (by
        unfold size
        rw [hcost]
        rw [hgoals] at hcard
        omega)
    apply wp_bind_comes hpasses
    intro _ w' _
    rw [wp_bind_core,wp_ite]
    split_ifs
    · have hmsg := (calm_message (.str "One or more targets not remade due to errors.") w').2
      exact wp_bind_comes (K := fun _ _ => True) (haltsPost.comes ⟨hmsg,trivial⟩) fun _ _ _ => trivial
    · trivial
  · exact fun _ _ _ => trivial
  · exact fun _ hw => hw.2

theorem cost_origin {c : Core} (hstarts : c.running = ∅) : cost R ⟨c,[]⟩ = 0 := by
  unfold cost Core.left
  dsimp only
  rw [hstarts]
  simp [starts]

/-- With enough passes a build ends. -/
theorem updateGoals_ends (B : Build E) (hR : B.Limit R) (hc : B.Commands) (hm : B.Method)
    (hfuel : 3*((R+1)*B.origin.next)+3+max B.origin.goals.card 1 < E.fuel) :
    (updateGoals E ⟨B.origin,[]⟩).1 ≠ .diverge := by
  have hi : B.origin.Idles B.guarded { B.origin with deleteOnError := ∅ } :=
    Core.idles_of_heap rfl rfl rfl rfl rfl rfl rfl
  have hfree : B.Free ⟨{ B.origin with deleteOnError := ∅ },[]⟩ := ⟨(free_origin B).1.idles hi,(free_origin B).2⟩
  have hlive : B.Live ⟨{ B.origin with deleteOnError := ∅ },[]⟩ := ⟨hfree.1,rfl⟩
  have hloop := updateGoalsP_comes hR hc hm hfuel hfree hlive (cost_origin B.ready.running) rfl
  have hall : wp (updateGoals E) (fun r _ => r ≠ .diverge) ⟨B.origin,[]⟩ := by
    unfold updateGoals
    rw [wp_bind_modify_quietly]
    have hatt : wp (Prog.attempt (updateGoalsP E)) (fun r _ => r ≠ .diverge)
        ⟨{ B.origin with deleteOnError := ∅ },[]⟩ := by
      rw [wp_attempt]
      apply wp_mono hloop
      intro r w hr
      cases r with
      | ret a => simp [catchPost]
      | raise e => simp [catchPost]
      | diverge => exact hr.elim
    apply wp_bind_of hatt
    · intro r w _
      cases r with
      | ok a => simp
      | error e =>
        rw [wp_bind_core,wp_ite]
        split_ifs
        · simp
        · split
          · rw [wp_ite]
            split_ifs <;> simp
          · simp
          · simp
    · simp
    · exact fun _ hno => absurd rfl hno
  exact hall

end Build

/-- A build of an ordinary graph ends if every command does. -/
theorem build_ends (E : Env) (hslots : 1 ≤ E.slots) (c : Core) (hc : c.Ordinary)
    (hdies : ∀ f name i, ∃ n, ∀ v, (E.resume f name i n).signal ≠ .yielded v) : BuildEnds E c := by
  refine ⟨?_,fun name l w w' hasks hr => ?_⟩
  · obtain ⟨R,hR⟩ := Build.exists_limit E c hdies
    refine ⟨3*((R+1)*c.next)+3+max c.goals.card 1+1,fun fuel hfuel => ?_⟩
    let B := hc.build (E := { E with fuel := fuel }) hslots
    have hm := hc.methods (E := { E with fuel := fuel }) hslots
    have hcmd := hc.commands (E := { E with fuel := fuel }) hslots
    have hfree := Build.free_origin B
    exact (Build.updateGoalsP_comes (hR fuel B rfl hcmd hm.1) hcmd hm hfuel hfree ⟨hfree.1,rfl⟩
      (Build.cost_origin B.ready.running) rfl).ne_diverge
  · have hm := hc.methods hslots
    have hw := Build.askGoal_waits hm (Build.Free.asks (B := hc.build hslots) hasks) name
    unfold wp at hw
    rw [hr] at hw
    exact hw rfl

/-- Every command yields three times, with two slots. -/
def Env.pausing : Env := { Env.plain with
  slots := 2
  resume := fun _ _ _ n => if n < 3 then ⟨id,∅,.yielded .nil⟩ else ⟨id,∅,.finished⟩ }

theorem build_ends_lib : BuildEnds Env.pausing Core.withLib :=
  build_ends Env.pausing (by decide) Core.withLib ordinary_withLib fun _ _ _ =>
    ⟨3,fun v hv => by cases (show Signal.finished = .yielded v from hv)⟩

/-- If every command ends, a build without `-k` in which something fails ends with an error. -/
theorem failure_raises (E : Env) (hslots : 1 ≤ E.slots) (c : Core) (hc : c.Ordinary)
    (hdies : ∀ f name i, ∃ n, ∀ v, (E.resume f name i n).signal ≠ .yielded v) (hk : E.flags.keepGoing = false) :
    ∃ N, ∀ fuel ≥ N, ¬Clean (updateGoals { E with fuel := fuel } ⟨c,[]⟩).2 →
      ∃ e, (updateGoals { E with fuel := fuel } ⟨c,[]⟩).1 = .raise e := by
  obtain ⟨R,hR⟩ := Build.exists_limit E c hdies
  refine ⟨3*((R+1)*c.next)+3+max c.goals.card 1+1,fun fuel hfuel hfail => ?_⟩
  let B := hc.build (E := { E with fuel := fuel }) hslots
  have hm := hc.methods (E := { E with fuel := fuel }) hslots
  have hcmd := hc.commands (E := { E with fuel := fuel }) hslots
  have hends := B.updateGoals_ends (hR fuel B rfl hcmd hm.1) hcmd hm hfuel
  have hreturned := updateGoals_returned (E := { E with fuel := fuel }) hk c
  cases hr : (updateGoals { E with fuel := fuel } ⟨c,[]⟩).1 with
  | ret a => exact absurd (hreturned.2 ⟨a,hr⟩) hfail
  | raise e => exact ⟨e,rfl⟩
  | diverge => exact absurd hr hends

end Presto
