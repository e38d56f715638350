import Presto.Engine.Runs
import Presto.Engine.JobFrame

/-! The main loop ends: each pass removes a goal, starts a job or resumes one. -/
namespace Presto
open Program Traced

namespace Core

/-- The resumes of job `i` that are left if a job dies before resume number `R`. -/
def leftOf (R : ℕ) (c : Core) (i : ℕ) : ℕ := R-(c.running.lookup i).elim 0 Job.resumed

/-- The resumes that all running jobs have left. -/
def left (R : ℕ) (c : Core) : ℕ := ∑ i ∈ c.running.keys, c.leftOf R i

variable {R : ℕ} {c : Core} {i : ℕ} {j : Job}

theorem left_insert_le (R : ℕ) (c : Core) (i : ℕ) (j : Job) :
    (c.insertJob i j).left R ≤ c.left R+(R-j.resumed) := by
  have hkeys : (c.insertJob i j).running.keys = insert i c.running.keys := by
    ext i'
    rw [Finset.mem_insert,Finmap.mem_keys,Finmap.mem_keys]
    exact Finmap.mem_insert ..
  have hself : (c.insertJob i j).leftOf R i = R-j.resumed := by
    unfold leftOf insertJob
    rw [Finmap.lookup_insert]
    rfl
  have hother : ∀ i' ∈ c.running.keys.erase i, (c.insertJob i j).leftOf R i' = c.leftOf R i' := by
    intro i' hi'
    unfold leftOf insertJob
    rw [Finmap.lookup_insert_of_ne _ (Finset.ne_of_mem_erase hi')]
  have hsum : ∑ i' ∈ c.running.keys.erase i, (c.insertJob i j).leftOf R i' =
      ∑ i' ∈ c.running.keys.erase i, c.leftOf R i' := Finset.sum_congr rfl hother
  unfold left
  rw [hkeys,← Finset.add_sum_erase _ _ (Finset.mem_insert_self i _),hself,Finset.erase_insert_eq_erase,
    hsum]
  have hle : ∑ i' ∈ c.running.keys.erase i, c.leftOf R i' ≤ ∑ i' ∈ c.running.keys, c.leftOf R i' :=
    Finset.sum_le_sum_of_subset (Finset.erase_subset i c.running.keys)
  omega

/-- The share of one running job. -/
theorem left_eq (hl : c.running.lookup i = some j) :
    c.left R = (R-j.resumed)+∑ i' ∈ c.running.keys.erase i, c.leftOf R i' := by
  have hmem : i ∈ c.running.keys := Finmap.mem_keys.mpr (Finmap.mem_of_lookup_eq_some hl)
  unfold left
  rw [← Finset.add_sum_erase _ _ hmem]
  congr 1
  simp [leftOf,hl]

theorem left_removeJob (hl : c.running.lookup i = some j) (hR : j.resumed < R) :
    (c.removeJob i).left R < c.left R := by
  have hkeys : (c.removeJob i).running.keys = c.running.keys.erase i := by
    ext i'
    rw [Finset.mem_erase,Finmap.mem_keys,Finmap.mem_keys]
    exact Finmap.mem_erase
  have hother : ∀ i' ∈ c.running.keys.erase i, (c.removeJob i).leftOf R i' = c.leftOf R i' := by
    intro i' hi'
    unfold leftOf removeJob
    rw [Finmap.lookup_erase_ne (Finset.ne_of_mem_erase hi')]
  have hsum : ∑ i' ∈ c.running.keys.erase i, (c.removeJob i).leftOf R i' =
      ∑ i' ∈ c.running.keys.erase i, c.leftOf R i' := Finset.sum_congr rfl hother
  rw [left_eq hl]
  unfold left
  rw [hkeys,hsum]
  omega

theorem left_yieldJob (hl : c.running.lookup i = some j) (hR : j.resumed < R) (v : Value) :
    (c.yieldJob i j v).left R < c.left R := by
  have hlookup : (c.yieldJob i j v).running.lookup i = some { j with resumed := j.resumed+1, handle := v } :=
    Finmap.lookup_insert _
  have hkeys : (c.yieldJob i j v).running.keys = c.running.keys := by
    ext i'
    rw [Finmap.mem_keys,Finmap.mem_keys]
    refine (Finmap.mem_insert ..).trans ⟨?_,.inr⟩
    rintro (rfl | hm)
    · exact Finmap.mem_of_lookup_eq_some hl
    · exact hm
  have hother : ∀ i' ∈ c.running.keys.erase i, (c.yieldJob i j v).leftOf R i' = c.leftOf R i' := by
    intro i' hi'
    unfold leftOf yieldJob
    rw [Finmap.lookup_insert_of_ne _ (Finset.ne_of_mem_erase hi')]
  have hsum : ∑ i' ∈ c.running.keys.erase i, (c.yieldJob i j v).leftOf R i' =
      ∑ i' ∈ c.running.keys.erase i, c.leftOf R i' := Finset.sum_congr rfl hother
  rw [left_eq hl,left_eq hlookup,hkeys,hsum]
  dsimp only
  omega

end Core

/-- What is left of the resumes, where each job that has been started counts for `R+1`. -/
def cost (R : ℕ) (w : World) : ℤ := w.now.left R-(R+1)*(starts w).length

/-- No goal is touched, and a job that is started costs something. -/
structure Burns (R : ℕ) (w w' : World) : Prop where
  goals : w'.now.goals = w.now.goals
  pos : w'.now.pos+(starts w).length = w.now.pos+(starts w').length
  cost : cost R w' ≤ cost R w
  count : w'.now.count ≠ w.now.count → Presto.cost R w' < Presto.cost R w

instance (R : ℕ) : IsPreorder World (Burns R) where
  refl _ := ⟨rfl,rfl,le_rfl,fun h => absurd rfl h⟩
  trans u v w h h' := by
    refine ⟨h'.goals.trans h.goals,?_,h'.cost.trans h.cost,fun hne => ?_⟩
    · have h₁ := h.pos
      have h₂ := h'.pos
      omega
    · by_cases hv : v.now.count = u.now.count
      · exact (h'.count (by rwa [hv])).trans_le h.cost
      · exact h'.cost.trans_lt (h.count hv)

theorem burns_of_calm (R : ℕ) (w w' : World) (h : Calm w w') : Burns R w w' := by
  have hleft : w'.now.left R = w.now.left R := by
    unfold Core.left Core.leftOf
    rw [h.running]
  have hcost : cost R w' = cost R w := by rw [cost,hleft,h.starts,cost]
  exact ⟨h.goals,by rw [h.pos,h.starts],hcost.le,fun hne => absurd h.count hne⟩

namespace Core

/-- The jobs, the goals and the counters stay as they are. -/
structure Apart (c c' : Core) : Prop where
  running : c'.running = c.running
  count : c'.count = c.count
  goals : c'.goals = c.goals
  pos : c'.pos = c.pos

instance : IsPreorder Core Apart where
  refl _ := ⟨rfl,rfl,rfl,rfl⟩
  trans _ _ _ h h' := ⟨h'.running.trans h.running,h'.count.trans h.count,h'.goals.trans h.goals,
    h'.pos.trans h.pos⟩

end Core

section
variable {α : Type} {E : Env} {R : ℕ} {w : World}

theorem apart_resumeCommand (f : Fn) (name : Value) (i n : ℕ) :
    Serves Core.Apart (resumeCommand E f name i n) := by
  unfold resumeCommand
  refine serves_bind (serves_gets id) fun c => ?_
  split
  · exact serves_pure _
  · split
    · refine serves_ite (serves_pure _) ?_
      split
      · exact serves_bind (serves_modify fun c => ⟨rfl,rfl,rfl,rfl⟩) fun _ => serves_pure _
      · exact serves_pure _
    · exact serves_pure _
  · exact serves_bind (serves_modify fun c => ⟨rfl,rfl,rfl,rfl⟩) fun _ => serves_pure _

theorem left_recordStart (self : ObjId) (i : ℕ) (j : Job) (signal : Signal) :
    (w.now.recordStart self i j signal).left R ≤ w.now.left R+(R-j.resumed) := by
  cases signal with
  | yielded v => exact Core.left_insert_le R w.now i { j with handle := v }
  | finished => exact Nat.le_add_right _ _
  | raised v => exact Nat.le_add_right _ _

/-- What follows the start of a job gives back at most `R` of the `R+1` that the start costs. -/
theorem burns_launched {o : ObjId} {w' : World} (hg : w'.now.goals = w.now.goals)
    (hp : w'.now.pos = w.now.nextJob.pos) (hs : starts w' = starts (launched w o))
    (hl : w'.now.left R ≤ w.now.left R+R) : w'.now.goals = w.now.goals ∧
      w'.now.pos+(starts w).length = w.now.pos+(starts w').length ∧ cost R w' < cost R w := by
  have hstarts : (starts w').length = (starts w).length+1 := by rw [hs]; rfl
  refine ⟨hg,?_,?_⟩
  · rw [hp,hstarts]
    change w.now.pos+1+_ = _
    omega
  · have hz : (w'.now.left R : ℤ) ≤ w.now.left R+R := by exact_mod_cast hl
    unfold cost
    rw [hstarts]
    push_cast
    rw [mul_add]
    omega

/-- Starting a job costs something. -/
theorem jobsStart_burns (o : ObjId) (w : World) :
    wp (jobsStart E o) (fun r w' => (w'.now.goals = w.now.goals ∧
      w'.now.pos+(starts w).length = w.now.pos+(starts w').length ∧ cost R w' < cost R w) ∧
      r ≠ .diverge) w := by
  apply wp_jobsStart
  · exact fun _ _ => ⟨burns_launched rfl rfl rfl (Nat.le_add_right _ _),by rintro ⟨⟩⟩
  · intro f _ _
    unfold startJob
    rw [wp_bind_emit]
    have hres : wp (quietly (resumeCommand E f (w.now.attr o "name") w.now.nextJob.pos 0))
        (fun r w' => (w.now.nextJob.Apart w'.now ∧ starts w' = starts (launched w o)) ∧ r ≠ .diverge)
        ⟨w.now.nextJob,(.resuming w.now.nextJob.pos,w.now.nextJob)::(launched w o).trace⟩ :=
      have ha := apart_resumeCommand (E := E) f (w.now.attr o "name") w.now.nextJob.pos 0 w.now.nextJob
      ⟨⟨ha.1,rfl⟩,ha.2⟩
    have hdone : ∀ w', w.now.nextJob.Apart w'.now ∧ starts w' = starts (launched w o) →
        w'.now.left R = w.now.left R := by
      rintro w' ⟨ha,_⟩
      unfold Core.left Core.leftOf
      rw [ha.running]
      rfl
    apply wp_bind_of hres
    · rintro signal w' ⟨hw',_⟩
      unfold recordFirst
      rw [wp_bind_assoc,wp_bind_modify_quietly]
      have hleft := left_recordStart (R := R) (w := w') o w.now.nextJob.pos
        ⟨f,w.now.attr o "name",1,.nil⟩ signal
      have hrec : ∀ t, starts ⟨w'.now,t⟩ = starts (launched w o) → (fun w'' : World =>
          w''.now.goals = w.now.goals ∧ w''.now.pos+(starts w).length = w.now.pos+(starts w'').length ∧
            cost R w'' < cost R w)
          ⟨w'.now.recordStart o w.now.nextJob.pos
            ⟨f,w.now.attr o "name",1,.nil⟩ signal,t⟩ := by
        intro t ht
        apply burns_launched (o := o)
        · rw [← show w'.now.goals = w.now.goals from hw'.1.goals]
          cases signal <;> rfl
        · rw [← hw'.1.pos]
          cases signal <;> rfl
        · exact ht
        · rw [← hdone w' hw']
          refine hleft.trans ?_
          dsimp only
          omega
      split_ifs
      · exact ⟨hrec _ hw'.2,by rintro ⟨⟩⟩
      · exact ⟨hrec _ hw'.2,by rintro ⟨⟩⟩
    · rintro e w' ⟨hw',_⟩
      exact ⟨burns_launched hw'.1.goals hw'.1.pos hw'.2 (by rw [hdone w' hw']; omega),by simp⟩
    · exact fun _ hw' => absurd rfl hw'.2

theorem burns_jobsStart (o : ObjId) : Serves (Burns R) (jobsStart E o) := by
  intro w
  obtain ⟨⟨hg,hp,hc⟩,hr⟩ := jobsStart_burns (E := E) (R := R) o w
  exact ⟨⟨hg,hp,hc.le,fun _ => hc⟩,hr⟩

theorem burns_bringUpToDate (n : ℕ) (self : ObjId) : Serves (Burns R) (bringUpToDate E n self) :=
  serves_bringUpToDate E (burns_of_calm R) burns_jobsStart n self

theorem calm_finishTarget (name : Value) (err : Option Value) : Serves Calm (finishTarget name err) := by
  have hindex : Serves Calm (quietly (indexValue name) : Engine Value) := by
    unfold indexValue
    split
    · exact calm_quietly (calm_targetIndex _)
    · exact calm_quietly fun c => ⟨⟨rfl,rfl,rfl,rfl,rfl,rfl⟩,by rintro ⟨⟩⟩
    · exact calm_raiseError _
  refine serves_bind hindex fun v => serves_bind (calm_quietly (calm_asTable v)) fun o => ?_
  refine serves_bind (calm_setField o _ _) fun _ => ?_
  cases err with
  | none => exact serves_pure _
  | some e =>
    refine serves_bind hindex fun v => serves_bind (calm_quietly (calm_asTable v)) fun o => ?_
    refine serves_bind (calm_setField o _ _) fun _ => serves_bind hindex fun v => ?_
    refine serves_bind (calm_quietly (calm_asTable v)) fun p => ?_
    exact serves_bind (calm_setField p _ _) fun _ => calm_emit id

theorem calm_reportJob (j : Job) (v : Value) : Serves Calm (reportJob j v) :=
  serves_bind (calm_concatText _) fun _ => serves_bind (calm_message _) fun _ => calm_messageIf v

end

namespace Build
variable {E : Env} (B : Build E) (R : ℕ)

/-- The books are kept, and the job numbers count the starts. -/
structure Live (w : World) : Prop extends B.Books w where
  numbers : w.now.pos = B.origin.pos+(starts w).length

/-- No job can be resumed `R` times. -/
def Limit : Prop := ∀ w, B.Live w → ∀ i j, w.now.running.lookup i = some j → j.resumed < R

/-- No goal is touched and nothing is started, and no resume is added. -/
structure Drains (w w' : World) : Prop where
  live : B.Live w'
  goals : w'.now.goals = w.now.goals
  starts : starts w' = starts w
  left : w'.now.left R ≤ w.now.left R

variable {B R} {w w' w'' : World} {i : ℕ} {j : Job} {α : Type}

theorem Drains.trans (h : B.Drains R w w') (h' : B.Drains R w' w'') : B.Drains R w w'' :=
  ⟨h'.live,h'.goals.trans h.goals,h'.starts.trans h.starts,h'.left.trans h.left⟩

theorem Drains.refl (h : B.Live w) : B.Drains R w w := ⟨h,rfl,rfl,le_rfl⟩

/-- Calm code that keeps the books. -/
theorem drains_of_calm {m : Engine α} (hc : Serves Calm m) (hw : Moves B.Winds m) (h : B.Live w) :
    wp m (fun o w' => o ≠ .diverge ∧ B.Drains R w w') w := by
  obtain ⟨hcalm,hret⟩ := hc w
  refine ⟨hret,⟨(hw w h.toBooks).1,?_⟩,hcalm.goals,hcalm.starts,le_of_eq ?_⟩
  · rw [hcalm.pos,hcalm.starts]
    exact h.numbers
  · unfold Core.left Core.leftOf
    rw [hcalm.running]

/-- The end of a job takes the resumes that it has left. -/
theorem finishJob_drains (hR : B.Limit R) (h : B.Live w) (hl : w.now.running.lookup i = some j)
    (err : Option Value) : wp (finishJob i j err) (fun o w' => o ≠ .diverge ∧ B.Drains R w w' ∧
      w'.now.left R < w.now.left R) w := by
  have hcalm : Serves Calm (do
      finishTarget j.target err
      Prog.emit (.processed i)) := serves_bind (calm_finishTarget _ err) fun _ => calm_emit id
  have hbooks := finishJob_books h.toBooks hl err
  obtain ⟨hc,hret⟩ : Calm { w with now := w.now.removeJob i } (finishJob i j err w).2 ∧
      (finishJob i j err w).1 ≠ .diverge := hcalm { w with now := w.now.removeJob i }
  have hleft : (finishJob i j err w).2.now.left R < w.now.left R := by
    refine lt_of_eq_of_lt ?_ (Core.left_removeJob hl (hR w h i j hl))
    unfold Core.left Core.leftOf
    rw [hc.running]
  refine ⟨hret,⟨⟨hbooks.1,?_⟩,hc.goals,hc.starts,hleft.le⟩,hleft⟩
  rw [hc.pos,hc.starts]
  exact h.numbers

/-- A program that comes back and only drains. -/
def Comes (B : Build E) (R : ℕ) (w : World) (o : Outcome Value α) (w' : World) : Prop :=
  o ≠ .diverge ∧ B.Drains R w w'

theorem Drains.comes {m : Engine α} (hd : B.Drains R w w') (h : wp m (B.Comes R w') w') :
    wp m (B.Comes R w) w' := ⟨h.1,hd.trans h.2⟩

/-- Something has been resumed before. -/
theorem Drains.strict {m : Engine α} (hd : B.Drains R w w') (hlt : w'.now.left R < w.now.left R)
    (h : wp m (B.Comes R w') w') :
    wp m (haltsPost fun w'' => B.Drains R w w'' ∧ w''.now.left R < w.now.left R) w' :=
  ⟨h.1,hd.trans h.2,h.2.left.trans_lt hlt⟩

/-- One job in the loop of the dispatcher: a job that still runs is resumed. -/
theorem dispatchJob_comes (hR : B.Limit R) {exit : Engine Unit} (h : B.Live w) (i : ℕ)
    (hexit : ∀ w', B.Live w' → w'.now.left R < w.now.left R → wp exit (B.Comes R w') w')
    (waiting : List Value) : wp (dispatchJob E exit i waiting) (fun o w' => B.Comes R w o w' ∧
      ((w.now.running.lookup i).isSome → w'.now.left R < w.now.left R)) w := by
  unfold dispatchJob
  rw [wp_bind_core]
  cases hl : w.now.running.lookup i with
  | none => exact ⟨⟨by rintro ⟨⟩,.refl h⟩,fun hs => by cases hs⟩
  | some j =>
    dsimp only
    refine wp_mono (Q := haltsPost fun w' => B.Drains R w w' ∧ w'.now.left R < w.now.left R) ?_
      fun o w' hw => ⟨⟨hw.1,hw.2.1⟩,fun _ => hw.2.2⟩
    rw [wp_bind_emit]
    have he := h.toBooks.emit (e := .resuming i) id
    obtain ⟨signal,c,hr,hi,hyield⟩ := resumeJob_ret he hl
    have hapart : w.now.Apart c := by
      have ha : (quietly (resumeCommand E j.command j.target i j.resumed) : Engine Signal)
          { w with trace := (.resuming i,w.now)::w.trace } =
          (.ret signal,{ w with now := c, trace := (.resuming i,w.now)::w.trace }) := by
        have hs := h.accounts.suspended i j hl
        unfold resumeJob at hr
        rwa [if_pos hs] at hr
      have ha' := (apart_resumeCommand (E := E) j.command j.target i j.resumed w.now).1
      have hc : (resumeCommand E j.command j.target i j.resumed w.now).2 = c :=
        congrArg (fun p => p.2.now) ha
      rwa [hc] at ha'
    apply wp_bind_ret hr
    set w₁ : World := { w with now := c, trace := (.resuming i,w.now)::w.trace }
    have hlive : B.Live w₁ := ⟨he.idles hi,by
      change c.pos = _
      rw [hapart.pos]
      exact h.numbers⟩
    have hleft : c.left R = w.now.left R := by
      unfold Core.left Core.leftOf
      rw [hapart.running]
    have hd : B.Drains R w w₁ := ⟨hlive,hapart.goals,rfl,hleft.le⟩
    have hl' : c.running.lookup i = some j := by rw [hapart.running]; exact hl
    have hfinish : ∀ err, wp (finishJob i j err)
        (haltsPost fun w' => B.Drains R w w' ∧ w'.now.left R < w.now.left R) w₁ := by
      intro err
      obtain ⟨ho,hd',hlt⟩ := finishJob_drains hR hlive hl' err
      exact ⟨ho,hd.trans hd',hlt.trans_eq hleft⟩
    cases signal with
    | finished =>
      apply wp_bind_halts (hfinish none)
      exact fun _ w' hw => ⟨by rintro ⟨⟩,hw⟩
    | raised v =>
      apply wp_bind_halts (hfinish (some v))
      rintro _ w' ⟨hd',hlt⟩
      apply wp_bind_halts (hd'.strict hlt (drains_of_calm (calm_reportJob j v) (winds_reportJob j v) hd'.live))
      rintro _ w'' ⟨hd'',hlt'⟩
      apply wp_bind_halts (hd''.strict hlt' (hexit w'' hd''.live hlt'))
      exact fun _ w₃ hw => ⟨by rintro ⟨⟩,hw⟩
    | yielded v =>
      dsimp only
      rw [wp_bind_modify_quietly,wp_bind_emit]
      have hy := Core.left_yieldJob hl' (hR w₁ hlive i j hl') (if v = .nil then j.handle else v)
      rw [hleft] at hy
      have hb := (hlive.toBooks.yield hl' (if v = .nil then j.handle else v) ⟨v,(hyield v rfl).1⟩ (hyield v rfl).2).emit
        (e := .processed i) id
      exact ⟨by rintro ⟨⟩,⟨⟨hb,hlive.numbers⟩,hapart.goals,rfl,hy.le⟩,hy⟩

/-- One pass over the jobs: if there is one, a job is resumed. -/
theorem forEach_dispatchJob_comes (hR : B.Limit R) {exit : Engine Unit} {order : List ℕ} {w w₀ : World}
    (h : B.Live w) (h₀ : B.Drains R w w₀) (hrun : w₀.now.running = w.now.running)
    (hmem : ∀ i, i ∈ order ↔ i ∈ w.now.running.keys)
    (hexit : ∀ w', B.Live w' → w'.now.left R < w.now.left R → wp exit (B.Comes R w') w') :
    wp (forEach (dispatchJob E exit) order ([] : List Value))
      (fun o w' => B.Comes R w o w' ∧ (0 < w.now.count → w'.now.left R < w.now.left R)) w₀ := by
  apply wp_forEach fun l _ w' => B.Drains R w w' ∧
    (w'.now.left R < w.now.left R ∨ l = order ∧ w'.now.running = w.now.running)
  · rintro i l waiting w' ⟨hd,hlt⟩
    have hstop : ∀ w'', B.Live w'' → w''.now.left R < w'.now.left R → wp exit (B.Comes R w'') w'' :=
      fun w'' hl hlt' => hexit w'' hl (hlt'.trans_le hd.left)
    apply wp_mono (dispatchJob_comes hR hd.live i hstop waiting)
    rintro o w'' ⟨⟨ho,hd'⟩,hfound⟩
    have hstrict : w''.now.left R < w.now.left R := by
      rcases hlt with hlt | ⟨heq,hrun⟩
      · exact hd'.left.trans_lt hlt
      · have hi : i ∈ order := heq ▸ List.mem_cons_self
        rw [hmem,← hrun] at hi
        exact (hfound (Finmap.lookup_isSome.mpr (Finmap.mem_keys.mp hi))).trans_le hd.left
    have hcomes := hd.trans hd'
    rcases o with (x | x | x) | e | _
    · exact ⟨hcomes,.inl hstrict⟩
    · exact ⟨⟨by rintro ⟨⟩,hcomes⟩,fun _ => hstrict⟩
    · cases x
    · exact ⟨⟨by simp,hcomes⟩,fun _ => hstrict⟩
    · exact absurd rfl ho
  · rintro waiting w' ⟨hd,hlt⟩
    refine ⟨⟨by rintro ⟨⟩,hd⟩,fun hpos => hlt.resolve_right ?_⟩
    rintro ⟨hnil,_⟩
    have hkeys : w.now.running.keys = ∅ := by
      apply Finset.eq_empty_of_forall_notMem
      intro i hi
      rw [← hmem,← hnil] at hi
      cases hi
    rw [h.accounts.count,hkeys] at hpos
    exact absurd hpos (by simp)
  · exact ⟨h₀,.inr ⟨rfl,hrun⟩⟩

/-- `make.exit`, with room for the drain loop. -/
theorem makeExit_comes {n : ℕ} (h : B.Live w)
    (hdrain : ∀ w', B.Live w' → w'.now.left R ≤ w.now.left R → wp (drain E n) (B.Comes R w') w') :
    wp (makeExit E (n+1)) (B.Comes R w) w := by
  unfold makeExit
  rw [wp_bind_core,wp_ite,wp_ite]
  split_ifs
  · exact ⟨by rintro ⟨⟩,⟨(winds_failure w h.toBooks).1,h.numbers⟩,rfl,rfl,le_rfl⟩
  · apply wp_bind_halts (drains_of_calm (R := R) (calm_message _) (winds_message _) h)
    intro _ w' hd
    apply wp_bind_halts (hd.comes (hdrain w' hd.live hd.left))
    intro _ w'' hd'
    apply wp_bind_halts (hd'.comes (drains_of_calm (calm_message _) (winds_message _) hd'.live))
    exact fun _ w₃ hd'' => ⟨by rintro ⟨⟩,hd''⟩
  · exact ⟨by rintro ⟨⟩,.refl h⟩

/-- One dispatch, when `make.exit` and the next dispatch come back. -/
theorem dispatch_comes {n : ℕ} (hR : B.Limit R) (h : B.Live w)
    (hexit : ∀ w', B.Live w' → w'.now.left R < w.now.left R → wp (makeExit E n) (B.Comes R w') w')
    (hagain : ∀ w', B.Live w' → w'.now.left R < w.now.left R → wp (dispatch E n) (B.Comes R w') w') :
    wp (dispatch E (n+1)) (fun o w' => B.Comes R w o w' ∧ (0 < w.now.count → w'.now.left R < w.now.left R)) w := by
  unfold dispatch
  rw [wp_bind_core]
  set order := E.jobs.order w.now.tick w.now.running.keys
  set w₀ : World := { w with now := { w.now with tick := w.now.tick+1 } }
  have h₀ : B.Drains R w w₀ := ⟨⟨(winds_enumerateJobs w h.toBooks).1,h.numbers⟩,rfl,rfl,le_rfl⟩
  refine wp_bind_ret (show quietly (enumerateJobs E) w = (.ret order,w₀) from rfl) ?_
  apply wp_bind_of (forEach_dispatchJob_comes hR h h₀ rfl (E.jobs.mem_order w.now.tick _) hexit)
  · rintro (waiting | e) w' ⟨⟨_,hd⟩,hlt⟩
    · dsimp only
      rw [wp_bind_core,wp_ite,wp_ite]
      split_ifs with hc hz
      · exact ⟨⟨by rintro ⟨⟩,hd⟩,hlt⟩
      · exact ⟨⟨by rintro ⟨⟩,hd⟩,hlt⟩
      · have hpos : 0 < w.now.count := by
          have hcard := h.accounts.count
          omega
        have hcalm : Serves Calm (procWait waiting) := serves_ite (calm_emit id) (calm_raiseError _)
        have hwait := hd.strict (hlt hpos) (drains_of_calm hcalm (winds_procWait waiting) hd.live)
        refine wp_mono (wp_bind_halts hwait fun _ w'' hw => ?_) fun o w₃ hw => ⟨⟨hw.1,hw.2.1⟩,fun _ => hw.2.2⟩
        exact hw.1.strict hw.2 (hagain w'' hw.1.live hw.2)
    · cases e
  · exact fun e w' hw => ⟨⟨by simp,hw.1.2⟩,hw.2⟩
  · exact fun w' hw => absurd rfl hw.1.1

/-- One pass of the drain loop. -/
theorem drain_comes {n : ℕ} (h : B.Live w) (hdispatch : wp (dispatch E n) (fun o w' => B.Comes R w o w' ∧
      (0 < w.now.count → w'.now.left R < w.now.left R)) w)
    (hagain : ∀ w', B.Live w' → w'.now.left R < w.now.left R → wp (drain E n) (B.Comes R w') w') :
    wp (drain E (n+1)) (B.Comes R w) w := by
  unfold drain
  rw [wp_bind_core,wp_ite]
  split_ifs with hc
  · have hatt : wp (Prog.attempt (dispatch E n)) (fun o w' => B.Comes R w o w' ∧
        w'.now.left R < w.now.left R) w := by
      rw [wp_attempt]
      apply wp_mono hdispatch
      rintro (_ | _ | _) w' ⟨⟨ho,hd⟩,hlt⟩
      · exact ⟨⟨by simp,hd⟩,hlt hc⟩
      · exact ⟨⟨by simp,hd⟩,hlt hc⟩
      · exact absurd rfl ho
    apply wp_bind_of hatt
    · rintro _ w' ⟨⟨_,hd⟩,hlt⟩
      exact hd.comes (hagain w' hd.live hlt)
    · exact fun e w' hw => ⟨by simp,hw.1.2⟩
    · exact fun w' hw => absurd rfl hw.1.1
  · exact ⟨by rintro ⟨⟩,.refl h⟩

/-- With enough passes the dispatcher, the drain loop and `make.exit` come back, and every
dispatch of running jobs resumes one. -/
theorem dispatch_drain_exit_come (hR : B.Limit R) (n : ℕ) (h : B.Live w) :
    (3*w.now.left R+1 ≤ n → wp (dispatch E n) (fun o w' => B.Comes R w o w' ∧
      (0 < w.now.count → w'.now.left R < w.now.left R)) w) ∧
    (3*w.now.left R+2 ≤ n → wp (drain E n) (B.Comes R w) w) ∧
    (3*w.now.left R+3 ≤ n → wp (makeExit E n) (B.Comes R w) w) := by
  induction n generalizing w with
  | zero => exact ⟨by omega,by omega,by omega⟩
  | succ n ih =>
    refine ⟨fun hn => ?_,fun hn => ?_,fun hn => ?_⟩
    · apply dispatch_comes hR h
      · exact fun w' hl hlt => (ih hl).2.2 (by omega)
      · exact fun w' hl hlt => wp_mono ((ih hl).1 (by omega)) fun _ _ hw => hw.1
    · apply drain_comes h ((ih h).1 (by omega))
      exact fun w' hl hlt => (ih hl).2.1 (by omega)
    · exact makeExit_comes h fun w' hl hle => (ih hl).2.1 (by omega)

end Build

end Presto
