import Presto.Engine.StatusFrame
import Presto.Engine.Events

/-! What `make.jobs.dispatch` waits for: the handles of the jobs that a pass has left running,
whether or not one of them has work to do. -/
namespace Presto
open Program Traced

/-- A call of `make.proc.wait`. -/
def Event.Waits : Event → Prop
  | .wait _ => True
  | _ => False

/-- The last resume of job `i` came back with `v`. -/
def Job.Yielded (E : Env) (i : ℕ) (j : Job) (v : Value) : Prop :=
  0 < j.resumed ∧ (E.resume j.command j.target i (j.resumed-1)).signal = .yielded v

instance (E : Env) (i : ℕ) (j : Job) (v : Value) : Decidable (j.Yielded E i v) := by
  unfold Job.Yielded
  infer_instance

theorem Job.Yielded.unique {E : Env} {i : ℕ} {j : Job} {u v : Value} (h : j.Yielded E i u)
    (h' : j.Yielded E i v) : u = v := Signal.yielded.inj (h.2.symm.trans h'.2)

/-- Every job waits for a process, and `handles` has the handle of each of them once. -/
structure Blocked (E : Env) (c : Core) (handles : List Value) : Prop where
  waits : ∀ i j, c.running.lookup i = some j → ∃ p, j.Yielded E i (.proc p)
  exact : ∃ picked : List (ℕ × Value), (picked.map Prod.fst).Nodup ∧
    handles = picked.map Prod.snd ∧ (∀ i, i ∈ picked.map Prod.fst ↔ i ∈ c.running) ∧
    ∀ x ∈ picked, ∃ j, c.running.lookup x.1 = some j ∧ j.Yielded E x.1 x.2

/-- No job has yielded without a value, as one does that has work to do. -/
def Indirect (E : Env) (c : Core) : Prop :=
  ∀ i j, c.running.lookup i = some j → ¬j.Yielded E i .nil

/-- A wait is for all jobs, unless one of them has work to do. Where no job is left, there is no
free slot either. -/
def WaitsRight (E : Env) (e : Event) (c : Core) : Prop :=
  ∀ handles, e = .wait handles → (Blocked E c handles ↔ Indirect E c) ∧
    (c.count ≠ 0 ∨ E.slots ≤ c.count)

/-- The part of a pass that has been made: `rest` is to come, and `waiting` has the handles of
the jobs that have yielded one. -/
structure Collected (E : Env) (order rest : List ℕ) (waiting : List Value) (c : Core) : Prop where
  within : ∀ i j, c.running.lookup i = some j → i ∈ order
  picked : ∃ (before : List ℕ) (picked : List (ℕ × Value)), order = before++rest ∧
    (picked.map Prod.fst).Sublist before ∧
    waiting = picked.map Prod.snd ∧
    (∀ x ∈ picked, ∃ j, c.running.lookup x.1 = some j ∧ j.Yielded E x.1 x.2) ∧
    ∀ i ∈ before, ∀ j, c.running.lookup i = some j → j.Yielded E i .nil ∨ i ∈ picked.map Prod.fst

section Collected
variable {E : Env} {c c' : Core} {order rest : List ℕ} {waiting : List Value} {i : ℕ}

theorem collected_start (n : ℕ) : Collected E (E.jobs.order n c.running.keys)
    (E.jobs.order n c.running.keys) [] c where
  within i j hl := by
    rw [E.jobs.mem_order,Finmap.mem_keys]
    exact Finmap.mem_of_lookup_eq_some hl
  picked := ⟨[],[],rfl,List.Sublist.refl _,rfl,by simp,by simp⟩

/-- Job `i` has been resumed, and is dead or has yielded `v`. -/
theorem Collected.visit (h : Collected E order (i::rest) waiting c) (hnd : order.Nodup)
    (hother : ∀ k, k ≠ i → c'.running.lookup k = c.running.lookup k) {v : Value}
    (hv : ∀ j, c'.running.lookup i = some j → j.Yielded E i v)
    (hrun : v ≠ .nil → ∃ j, c'.running.lookup i = some j) :
    Collected E order rest (if v = .nil then waiting else waiting++[v]) c' := by
  obtain ⟨before,picked,rfl,hsub,rfl,hpicked,hbefore⟩ := h.picked
  have hi : ∀ k ∈ before, k ≠ i := by
    rintro k hk rfl
    exact (List.nodup_append.mp hnd).2.2 k hk k List.mem_cons_self rfl
  have hold : ∀ x ∈ picked, ∃ j, c'.running.lookup x.1 = some j ∧ j.Yielded E x.1 x.2 := by
    intro x hx
    rw [hother x.1 (hi x.1 (hsub.subset (List.mem_map_of_mem hx)))]
    exact hpicked x hx
  refine ⟨fun k j hk => ?_,?_⟩
  · by_cases he : k = i
    · subst he
      simp
    · exact h.within k j (by rw [← hother k he,hk])
  · by_cases hnil : v = .nil
    · subst hnil
      refine ⟨before++[i],picked,by simp,hsub.trans (List.sublist_append_left _ _),rfl,hold,?_⟩
      intro k hk j hj
      rcases List.mem_append.mp hk with hk | hk
      · rw [hother k (hi k hk)] at hj
        exact hbefore k hk j hj
      · obtain rfl := List.mem_singleton.mp hk
        exact .inl (hv j hj)
    · rw [if_neg hnil]
      refine ⟨before++[i],picked++[(i,v)],by simp,?_,by simp,?_,?_⟩
      · rw [List.map_append]
        exact hsub.append (List.Sublist.refl _)
      · intro x hx
        rcases List.mem_append.mp hx with hx | hx
        · exact hold x hx
        · obtain rfl := List.mem_singleton.mp hx
          obtain ⟨j,hj⟩ := hrun hnil
          exact ⟨j,hj,hv j hj⟩
      · intro k hk j hj
        rcases List.mem_append.mp hk with hk | hk
        · rw [hother k (hi k hk)] at hj
          refine (hbefore k hk j hj).imp_right fun hin => ?_
          rw [List.map_append]
          exact List.mem_append_left _ hin
        · obtain rfl := List.mem_singleton.mp hk
          simp

/-- After the pass the list has the handles of all jobs, if none has work to do. -/
theorem Collected.blocked (h : Collected E order [] waiting c) (hnd : order.Nodup)
    (hproc : ∀ v ∈ waiting, ∃ p, v = .proc p) : Blocked E c waiting ↔ Indirect E c := by
  obtain ⟨before,picked,hord,hsub,rfl,hpicked,hbefore⟩ := h.picked
  rw [List.append_nil] at hord
  subst hord
  constructor
  · intro hb i j hl hnil
    obtain ⟨p,hp⟩ := hb.waits i j hl
    cases hp.unique hnil
  · intro hind
    have hall : ∀ i j, c.running.lookup i = some j → i ∈ picked.map Prod.fst := fun i j hl =>
      (hbefore i (h.within i j hl) j hl).resolve_left (hind i j hl)
    refine ⟨fun i j hl => ?_,picked,hsub.nodup hnd,rfl,fun i => ⟨fun hi => ?_,fun hi => ?_⟩,hpicked⟩
    · obtain ⟨x,hx,rfl⟩ := List.mem_map.mp (hall i j hl)
      obtain ⟨j',hl',hy⟩ := hpicked x hx
      rw [hl] at hl'
      cases hl'
      obtain ⟨p,hp⟩ := hproc x.2 (List.mem_map_of_mem hx)
      exact ⟨p,hp ▸ hy⟩
    · obtain ⟨x,hx,rfl⟩ := List.mem_map.mp hi
      obtain ⟨j,hj,_⟩ := hpicked x hx
      exact Finmap.mem_of_lookup_eq_some hj
    · obtain ⟨j,hj⟩ := Finmap.mem_iff.mp hi
      exact hall i j hj

end Collected

/-- The jobs are the same, and nothing has been waited for. -/
def Undisturbed (w w' : World) : Prop :=
  w'.now.running = w.now.running ∧ Emits (fun e => ¬e.Waits) w w'

instance : IsPreorder World Undisturbed where
  refl w := ⟨rfl,refl_of (Emits _) w⟩
  trans _ _ _ h h' := ⟨h'.1.trans h.1,trans_of (Emits _) h.2 h'.2⟩

section Undisturbed
variable {α : Type}

theorem undisturbed_quietly {m : Lua α} (h : ∀ c, (m c).2.running = c.running) :
    Moves Undisturbed (quietly m) := fun w => ⟨h w.now,emits_quietly m w⟩

theorem undisturbed_emit {e : Event} (h : ¬e.Waits) :
    Moves Undisturbed (Prog.emit e : Engine Unit) := fun w => ⟨rfl,moves_emit (P := fun e => ¬e.Waits) h w⟩

theorem undisturbed_raiseError (msg : String) : Moves Undisturbed (raiseError msg : Engine α) :=
  moves_raise _

theorem undisturbed_setField (o : ObjId) (key : String) (v : Value) :
    Moves Undisturbed (setField o key v) := undisturbed_quietly fun _ => rfl

theorem undisturbed_indexValue (v : Value) : Moves Undisturbed (quietly (indexValue v)) := by
  refine undisturbed_quietly fun c => ?_
  cases v with
  | str key => exact (idles_targetIndex (K := ∅) key c).running
  | _ => rfl

theorem undisturbed_asTable (v : Value) : Moves Undisturbed (quietly (asTable v)) :=
  undisturbed_quietly fun c => (idles_asTable (K := ∅) v c).running

theorem undisturbed_finishTarget (name : Value) (err : Option Value) :
    Moves Undisturbed (finishTarget name err) := by
  refine moves_bind (undisturbed_indexValue name) fun v => moves_bind (undisturbed_asTable v) fun o => ?_
  refine moves_bind (undisturbed_setField o _ _) fun _ => ?_
  cases err with
  | none => exact moves_pure _
  | some e =>
    refine moves_bind (undisturbed_indexValue name) fun v => moves_bind (undisturbed_asTable v) fun o => ?_
    refine moves_bind (undisturbed_setField o _ _) fun _ => moves_bind (undisturbed_indexValue name) fun v => ?_
    refine moves_bind (undisturbed_asTable v) fun p => moves_bind (undisturbed_setField p _ _) fun _ => ?_
    exact undisturbed_emit id

theorem undisturbed_message (v : Value) : Moves Undisturbed (message v) := by
  unfold message
  split
  · exact undisturbed_emit id
  · exact undisturbed_emit id
  · exact undisturbed_raiseError _

theorem undisturbed_reportJob (j : Job) (v : Value) : Moves Undisturbed (reportJob j v) := by
  refine moves_bind ?_ fun name => moves_bind (undisturbed_message _) fun _ =>
    moves_ite (undisturbed_message v) (moves_pure _)
  unfold concatText
  split
  · exact moves_pure _
  · exact moves_pure _
  · exact undisturbed_raiseError _

end Undisturbed

section Dispatch
variable {E : Env} {w w' : World} {order rest : List ℕ} {waiting : List Value} {i : ℕ} {j : Job}

theorem always_of_emits (h : Emits (fun e => ¬e.Waits) w w') (hw : w.Always (WaitsRight E)) :
    w'.Always (WaitsRight E) := h.always hw fun _ _ he _ heq => absurd (heq ▸ trivial) he

theorem Undisturbed.always (h : Undisturbed w w') (hw : w.Always (WaitsRight E)) :
    w'.Always (WaitsRight E) := always_of_emits h.2 hw

/-- A job has ended; whatever becomes of its target, it is off the list. -/
theorem finishJob_running (w : World) (i : ℕ) (j : Job) (err : Option Value) :
    Undisturbed { w with now := w.now.removeJob i } (finishJob i j err w).2 := by
  have hm : Moves Undisturbed (do
      finishTarget j.target err
      Prog.emit (.processed i) : Engine Unit) :=
    moves_bind (undisturbed_finishTarget _ _) fun _ => undisturbed_emit id
  exact hm _

theorem resumeJob_signal (w : World) (i : ℕ) (j : Job) :
    ∃ s c, resumeJob E i j w = (.ret s,{ w with now := c }) ∧ c.running = w.now.running ∧
      ∀ v, s = .yielded v → (E.resume j.command j.target i j.resumed).signal = .yielded v := by
  unfold resumeJob
  split_ifs
  · obtain ⟨s,hs,hv⟩ := resumeCommand_signal E j.command j.target i j.resumed w.now
    have hr := (idles_resumeCommand (K := ∅) E j.command j.target i j.resumed w.now).running
    exact ⟨s,_,quietly_ret (Prod.ext hs rfl),hr,hv⟩
  · exact ⟨_,w.now,rfl,rfl,fun v hv => by cases hv⟩

/-- What a visit leaves: the trace is right, and a visit that comes back has done its part. -/
def Visited (E : Env) (order rest : List ℕ) (o : Outcome Value (Step (List Value) Empty))
    (w : World) : Prop :=
  w.Always (WaitsRight E) ∧ ∀ s, o = .ret s → ∃ waiting, s = .next waiting ∧
    Collected E order rest waiting w.now

/-- `make.exit` comes back to the pass only with all jobs as they are. -/
def ExitsRight (E : Env) (exit : Engine Unit) : Prop :=
  ∀ w, w.Always (WaitsRight E) → wp exit (fun o w' => w'.Always (WaitsRight E) ∧
    (o = .ret () → w'.now.running = w.now.running)) w

theorem dispatchJob_visits {exit : Engine Unit} (hexit : ExitsRight E exit) (hnd : order.Nodup)
    (hw : w.Always (WaitsRight E)) (h : Collected E order (i::rest) waiting w.now) :
    wp (dispatchJob E exit i waiting) (Visited E order rest) w := by
  suffices hwp : wp (dispatchJob E exit i waiting) (alwaysPost (Always (WaitsRight E)) fun s w' =>
      ∃ waiting, s = .next waiting ∧ Collected E order rest waiting w'.now) w from alwaysPost_iff.mp hwp
  unfold dispatchJob
  rw [wp_bind_core]
  cases hl : w.now.running.lookup i with
  | none => exact ⟨hw,waiting,rfl,h.visit (v := .nil) hnd (fun _ _ => rfl) (by simp [hl]) (by simp)⟩
  | some j =>
    dsimp only
    rw [wp_bind_emit]
    obtain ⟨signal,c,hr,hrun,hv⟩ := resumeJob_signal (E := E)
      { w with trace := (.resuming i,w.now)::w.trace } i j
    apply wp_bind_ret hr
    have hw₁ : Always (WaitsRight E) { w with now := c, trace := (.resuming i,w.now)::w.trace } := by
      intro x hx
      rcases List.mem_cons.mp hx with rfl | hx
      · exact fun _ he => by cases he
      · exact hw x hx
    -- a dead job is removed, and its neighbours stay
    have hdead : ∀ c', c'.running = c.running.erase i → Collected E order rest waiting c' := by
      intro c' hc'
      refine h.visit (v := .nil) hnd (fun k hk => ?_) (fun j' hj' => ?_) (by simp)
      · rw [hc',Finmap.lookup_erase_ne hk,hrun]
      · rw [hc',Finmap.lookup_erase] at hj'
        cases hj'
    have hfinish : ∀ err, wp (finishJob i j err) (alwaysPost (Always (WaitsRight E)) fun _ w' =>
        w'.now.running = c.running.erase i) { w with now := c, trace := (.resuming i,w.now)::w.trace } := by
      intro err
      have hf := finishJob_running { w with now := c, trace := (.resuming i,w.now)::w.trace } i j err
      exact alwaysPost_of (hf.always hw₁) fun _ _ => hf.1
    cases signal with
    | finished =>
      apply wp_bind_always (hfinish none)
      exact fun _ w' hw' hc' => ⟨hw',waiting,rfl,hdead _ hc'⟩
    | raised v =>
      apply wp_bind_always (hfinish (some v))
      intro _ w' hw' hc'
      have hreport : wp (reportJob j v) (alwaysPost (Always (WaitsRight E)) fun _ w₂ =>
          w₂.now.running = c.running.erase i) w' := by
        have hu := undisturbed_reportJob j v w'
        exact alwaysPost_of (hu.always hw') fun _ _ => hu.1.trans hc'
      apply wp_bind_always hreport
      intro _ w₂ hw₂ hc₂
      apply wp_bind_always (wp_mono (hexit w₂ hw₂) fun _ _ h => alwaysPost_of h.1 fun _ => h.2)
      exact fun _ w₃ hw₃ hrun₃ => ⟨hw₃,waiting,rfl,hdead _ (hrun₃.trans hc₂)⟩
    | yielded v =>
      dsimp only
      rw [wp_bind_modify_quietly,wp_bind_emit]
      refine ⟨?_,_,rfl,h.visit hnd (fun k hk => ?_) (fun j' hj' => ?_) fun _ => ?_⟩
      · intro x hx
        rcases List.mem_cons.mp hx with rfl | hx
        · exact fun _ he => by cases he
        · exact hw₁ x hx
      · change (c.running.insert i _).lookup k = _
        rw [Finmap.lookup_insert_of_ne _ hk,hrun]
      · change (c.running.insert i _).lookup i = some j' at hj'
        rw [Finmap.lookup_insert] at hj'
        cases hj'
        exact ⟨Nat.succ_pos _,hv v rfl⟩
      · exact ⟨_,Finmap.lookup_insert _⟩

/-- The wait at the end of a pass. -/
theorem procWait_right (hw : w.Always (WaitsRight E)) (hnd : order.Nodup)
    (h : Collected E order [] waiting w.now) (hleft : w.now.count ≠ 0 ∨ E.slots ≤ w.now.count) :
    (procWait waiting w).2.Always (WaitsRight E) := by
  unfold procWait
  split_ifs with hp
  · intro x hx
    rcases List.mem_cons.mp hx with rfl | hx
    · rintro handles ⟨⟩
      refine ⟨h.blocked hnd fun v hv => ?_,hleft⟩
      have hv := List.all_eq_true.mp hp v hv
      cases v with
      | proc p => exact ⟨p,rfl⟩
      | _ => cases hv
    · exact hw x hx
  · exact hw

theorem dispatch_waits {n : ℕ} (hexit : ExitsRight E (makeExit E n))
    (hdispatch : Keeps (Always (WaitsRight E)) (dispatch E n)) :
    Keeps (Always (WaitsRight E)) (dispatch E (n+1)) := by
  intro w hw
  have hwp : wp (dispatch E (n+1)) (fun _ w' => w'.Always (WaitsRight E)) w := by
    unfold dispatch
    rw [wp_bind_core]
    refine wp_bind_ret (m := quietly (enumerateJobs E)) rfl ?_
    have hnd := E.jobs.nodup w.now.tick w.now.running.keys
    have hloop : wp (forEach (dispatchJob E (makeExit E n)) (E.jobs.order w.now.tick w.now.running.keys) [])
        (fun o w' => w'.Always (WaitsRight E) ∧ ∀ waiting, o = .ret (.fell waiting) →
          Collected E (E.jobs.order w.now.tick w.now.running.keys) [] waiting w'.now)
        { w with now := { w.now with tick := w.now.tick+1 } } := by
      apply wp_forEach fun rest waiting w' => w'.Always (WaitsRight E) ∧
        Collected E (E.jobs.order w.now.tick w.now.running.keys) rest waiting w'.now
      · rintro i rest waiting w' ⟨hw',hc⟩
        apply wp_mono (dispatchJob_visits hexit hnd hw' hc)
        rintro (s | e | _) w₂ ⟨hw₂,hs⟩
        · obtain ⟨waiting',rfl,hc'⟩ := hs s rfl
          exact ⟨hw₂,hc'⟩
        · exact ⟨hw₂,by simp⟩
        · exact ⟨hw₂,by simp⟩
      · rintro waiting w' ⟨hw',hc⟩
        refine ⟨hw',?_⟩
        rintro _ ⟨⟩
        exact hc
      · exact ⟨hw,collected_start (c := { w.now with tick := w.now.tick+1 }) w.now.tick⟩
    apply wp_bind_of hloop
    · rintro (waiting | e) w' ⟨hw',hc⟩
      · dsimp only
        rw [wp_bind_core,wp_ite,wp_ite]
        split_ifs with hopen hnone
        · exact hw'
        · exact hw'
        · have hleft : w'.now.count ≠ 0 ∨ E.slots ≤ w'.now.count := by
            by_cases hsame : w.now.count = w'.now.count
            · exact .inl (hsame ▸ hnone)
            · exact .inr (not_lt.mp fun hlt => hopen ⟨hsame,hlt⟩)
          have hwait : wp (procWait waiting) (fun _ w₂ => w₂.Always (WaitsRight E)) w' :=
            procWait_right hw' hnd (hc waiting rfl) hleft
          exact wp_bind_of hwait (fun _ w₂ h => hdispatch w₂ h) (fun _ _ h => h) (fun _ h => h)
      · cases e
    · exact fun _ _ h => h.1
    · exact fun _ h => h.1
  exact hwp

theorem drain_waits {n : ℕ} (hdispatch : Keeps (Always (WaitsRight E)) (dispatch E n))
    (hdrain : Keeps (Always (WaitsRight E)) (drain E n)) :
    Keeps (Always (WaitsRight E)) (drain E (n+1)) := by
  intro w hw
  have hwp : wp (drain E (n+1)) (fun _ w' => w'.Always (WaitsRight E)) w := by
    unfold drain
    rw [wp_bind_core,wp_ite]
    split_ifs
    · have hd : wp (Prog.attempt (dispatch E n)) (fun _ w' => w'.Always (WaitsRight E)) w := by
        rw [wp_attempt]
        apply wp_mono (hdispatch.wp hw)
        rintro (_ | _ | _) w' h <;> exact h
      exact wp_bind_of hd (fun _ w' h => hdrain w' h) (fun _ _ h => h) (fun _ h => h)
    · exact hw
  exact hwp

/-- Without `-k` the other jobs are waited for, and `make.exit` does not come back. -/
theorem makeExit_waits {n : ℕ} (hdrain : Keeps (Always (WaitsRight E)) (drain E n)) :
    ExitsRight E (makeExit E (n+1)) := by
  intro w hw
  unfold makeExit
  rw [wp_bind_core,wp_ite,wp_ite]
  split_ifs
  · exact ⟨hw,fun _ => rfl⟩
  · have hend : ∀ (o : Outcome Value Unit) (w' : World), (∀ a, o ≠ .ret a) → w'.Always (WaitsRight E) →
        w'.Always (WaitsRight E) ∧ (o = .ret () → w'.now.running = w.now.running) :=
      fun o w' ho hw => ⟨hw,fun hr => absurd hr (ho ())⟩
    have hmessage : ∀ v, Keeps (Always (WaitsRight E)) (message v) :=
      fun v w hw => (undisturbed_message v w).always hw
    apply (hmessage _).wp_bind hw _ hend
    intro _ w₁ hw₁
    apply hdrain.wp_bind hw₁ _ hend
    intro _ w₂ hw₂
    apply (hmessage _).wp_bind hw₂ _ hend
    exact fun _ w₃ hw₃ => ⟨hw₃,fun hr => by cases hr⟩
  · exact ⟨hw,fun hr => by cases hr⟩

theorem waits_dispatch_drain_exit (n : ℕ) : Keeps (Always (WaitsRight E)) (dispatch E n) ∧
    Keeps (Always (WaitsRight E)) (drain E n) ∧ ExitsRight E (makeExit E n) := by
  induction n with
  | zero => exact ⟨fun _ h => h,fun _ h => h,fun w hw => ⟨hw,fun hr => by cases hr⟩⟩
  | succ n ih =>
    obtain ⟨hdispatch,hdrain,hexit⟩ := ih
    exact ⟨dispatch_waits hexit hdispatch,drain_waits hdispatch hdrain,makeExit_waits hdrain⟩

end Dispatch

/-! `bring_up_to_date` waits for nothing. -/
section BringUp
variable (E : Env)

theorem unwaiting_printed (v : Value) : ¬(Event.printed v).Waits := id

theorem unwaiting_failDep (self dep : ObjId) (name : String) (b : Pass) :
    Moves (Emits fun e => ¬e.Waits) (failDep E self dep name b) := by
  refine moves_bind emits_core fun c => moves_bind (emits_concatText _) fun depName => ?_
  refine moves_bind (emits_message unwaiting_printed _) fun _ => ?_
  refine moves_bind (emits_messageIf unwaiting_printed _) fun _ => moves_ite ?_ ?_
  · refine moves_bind (emits_prune self name) fun _ => ?_
    exact moves_bind (emits_setField self _ _) fun _ => moves_pure _
  · refine moves_bind (emits_markError (fun _ => id) self) fun _ => ?_
    exact moves_bind emits_core fun _ => moves_pure _

theorem unwaiting_useDep (self dep : ObjId) (name : String) (b : Pass) (status : Value) :
    Moves (Emits fun e => ¬e.Waits) (useDep E self dep name b status) := by
  refine moves_ite ?_ (moves_ite (emits_compareDep E self dep name b)
    (moves_ite (unwaiting_failDep E self dep name b) (moves_ite ?_ ?_)))
  · exact moves_bind (emits_markNewer self name) fun _ => moves_pure _
  · exact moves_bind emits_core fun c => moves_ite (moves_pure _) (moves_pure _)
  · exact moves_bind (emits_concatText status) fun _ => emits_raiseError _

theorem unwaiting_noRule (self : ObjId) : Moves (Emits fun e => ¬e.Waits) (noRule self) := by
  refine moves_bind (emits_markError (fun _ => id) self) fun _ => moves_bind emits_core fun c => ?_
  refine moves_bind (emits_concatText _) fun name => ?_
  exact moves_bind (emits_setField self _ _) fun _ => emits_raiseError _

theorem unwaiting_jobsStart (self : ObjId) : Moves (Emits fun e => ¬e.Waits) (jobsStart E self) := by
  refine moves_bind (emits_quietly _) fun _ => moves_bind emits_core fun c => ?_
  refine moves_bind (moves_emit id) fun _ => ?_
  split
  · refine moves_ite (emits_raiseError _) ?_
    refine moves_bind (moves_emit id) fun _ => moves_bind (emits_quietly _) fun signal => ?_
    refine moves_bind ?_ fun _ => moves_bind (moves_emit id) fun _ => ?_
    · exact moves_bind (emits_quietly _) fun _ => moves_ite (moves_emit id) (moves_pure _)
    · exact moves_bind emits_core fun _ => moves_pure _
  · exact emits_raiseError _

theorem unwaiting_visit {bring : ObjId → Engine Value}
    (hbring : ∀ o, Moves (Emits fun e => ¬e.Waits) (bring o)) (o : ObjId) :
    Moves (Emits fun e => ¬e.Waits) (visit E bring o) := by
  have hcall : Moves (Emits fun e => ¬e.Waits) (callBring E bring o) := by
    refine moves_bind emits_core fun c => ?_
    split
    · exact moves_ite (hbring o) (emits_quietly _)
    · exact emits_raiseError _
  refine moves_bind (moves_attempt hcall) fun r => ?_
  cases r with
  | ok v => exact moves_pure _
  | error e => exact moves_bind (moves_emit id) fun _ => moves_pure _

theorem unwaiting_finishTargetUpdate (self : ObjId) (b : Pass) :
    Moves (Emits fun e => ¬e.Waits) (finishTargetUpdate E self b) := by
  refine moves_bind emits_core fun c => moves_ite (moves_pure _) (moves_ite ?_ (moves_ite ?_ (moves_pure _)))
  · refine moves_bind (emits_markError (fun _ => id) self) fun _ => ?_
    exact moves_bind emits_core fun _ => moves_pure _
  · refine moves_ite (emits_raiseError _) (moves_ite (unwaiting_jobsStart E self) ?_)
    refine moves_bind (emits_unbuildable E self) fun u => ?_
    exact moves_ite (unwaiting_noRule self) (moves_pure _)

theorem unwaiting_bringUpToDate (n : ℕ) (self : ObjId) :
    Moves (Emits fun e => ¬e.Waits) (bringUpToDate E n self) := by
  induction n generalizing self with
  | zero => exact emits_raiseError _
  | succ n ih =>
    refine moves_bind emits_core fun c => moves_ite (moves_pure _) ?_
    refine moves_bind (emits_ensureDepsNewer self) fun _ => moves_bind (emits_missing E self) fun mustBuild => ?_
    refine moves_bind (emits_quietly _) fun deps => moves_bind (emits_quietly _) fun order => ?_
    refine moves_bind (moves_forEach (fun name b => ?_) _ _) fun x => ?_
    · refine moves_bind (emits_quietly _) fun v => moves_bind (emits_quietly _) fun dep => ?_
      exact moves_bind (unwaiting_visit E ih dep) fun r => unwaiting_useDep E self dep name b _
    · rcases x with b | v
      · exact unwaiting_finishTargetUpdate E self b
      · exact moves_pure _

end BringUp

/-- Code that only adds waits that are right. -/
def AddsRight (E : Env) (w w' : World) : Prop :=
  w.Always (WaitsRight E) → w'.Always (WaitsRight E)

instance (E : Env) : IsPreorder World (AddsRight E) where
  refl _ := id
  trans _ _ _ h h' hw := h' (h hw)

section Goals
variable (E : Env) {α : Type}

theorem right_of_emits {m : Engine α} (h : Moves (Emits fun e => ¬e.Waits) m) : Moves (AddsRight E) m :=
  fun w => always_of_emits (h w)

theorem right_message (v : Value) : Moves (AddsRight E) (message v) :=
  right_of_emits E (emits_message unwaiting_printed v)

theorem right_reportGoal (goal : ObjId) (name : String) (status : Value) :
    Moves (AddsRight E) (reportGoal E goal name status) := by
  have hremove : Moves (AddsRight E) (quietly (Prog.modify fun c : Core =>
      { c with goals := c.goals.erase name }) : Engine Unit) := right_of_emits E (emits_quietly _)
  refine moves_ite (moves_pure _) (moves_ite ?_ (moves_ite ?_ ?_))
  · refine moves_bind ?_ fun _ => moves_bind ?_ fun _ => hremove
    · refine moves_bind (moves_ite (moves_pure _) (right_message E _)) fun _ => ?_
      exact moves_bind (moves_gets _) fun c => right_of_emits E (emits_messageIf unwaiting_printed _)
    · exact fun w hw => ((waits_dispatch_drain_exit E.fuel).2.2 w hw).1
  · exact moves_bind (right_message E _) fun _ => hremove
  · exact moves_bind (right_message E _) fun _ => hremove

theorem right_goalPass : Moves (AddsRight E) (goalPass E) := by
  refine moves_bind (moves_gets _) fun c => moves_bind (right_of_emits E (emits_quietly _)) fun order => ?_
  refine moves_bind (moves_forEach (fun name k => ?_) _ _) fun x => ?_
  · refine moves_bind (right_of_emits E (emits_quietly _)) fun v => ?_
    refine moves_bind (right_of_emits E (emits_quietly _)) fun goal => ?_
    refine moves_bind (right_of_emits E (unwaiting_visit E (unwaiting_bringUpToDate E _) goal)) fun r => ?_
    refine moves_bind ?_ fun status => moves_bind (right_reportGoal E goal name status) fun _ => ?_
    · cases r with
      | ok s => exact moves_pure _
      | error e => exact moves_bind (right_of_emits E (emits_setField _ _ _)) fun _ => moves_pure _
    · exact moves_bind (moves_gets _) fun c => moves_ite (moves_pure _) (moves_pure _)
  · rcases x with k | e
    · refine moves_bind (moves_bind (moves_gets _) fun c' => moves_ite ?_ (moves_pure _)) fun _ => moves_pure _
      exact (waits_dispatch_drain_exit E.fuel).1
    · cases e

theorem right_updateGoals : Moves (AddsRight E) (updateGoals E) := by
  have hraise : ∀ msg, Moves (AddsRight E) (raiseError msg : Engine Unit) := fun msg => moves_raise _
  have hp : Moves (AddsRight E) (updateGoalsP E) := by
    refine moves_bind (moves_bind (moves_gets _) fun c => moves_ite (moves_pure _)
      (moves_ite (hraise _) ?_)) fun _ => moves_bind (moves_repeatWhile (right_goalPass E) _) fun _ => ?_
    · refine moves_bind (right_of_emits E (emits_quietly _)) fun o => ?_
      split
      · exact right_of_emits E (emits_quietly _)
      · exact hraise _
    · refine moves_bind (moves_gets _) fun c => moves_ite ?_ (moves_pure _)
      exact moves_bind (right_message E _) fun _ => hraise _
  refine moves_bind (right_of_emits E (emits_quietly _)) fun _ => moves_bind (moves_attempt hp) fun r => ?_
  cases r with
  | ok u => exact moves_pure _
  | error e =>
    refine moves_bind (moves_gets _) fun c => moves_ite (hraise _) ?_
    split
    · exact moves_ite (moves_raise _) (hraise _)
    · exact hraise _
    · exact hraise _

/-- Every wait of a run is right. -/
theorem updateGoals_waits (c : Core) : (updateGoals E ⟨c,[]⟩).2.Always (WaitsRight E) :=
  right_updateGoals E ⟨c,[]⟩ fun x hx => by cases hx

end Goals

/-- Whatever jobs are running, each wait of `make.jobs.dispatch` is for exactly the handles of
all jobs if and only if no job that is left has work to do; if no command ever yields without
a value, each wait is. -/
theorem dispatch_blocked_iff (E : Env) (n : ℕ) (c : Core) :
    (∀ handles c', (Event.wait handles,c') ∈ (dispatch E n ⟨c,[]⟩).2.trace →
      (Blocked E c' handles ↔ Indirect E c')) ∧
    ((∀ f name i k, (E.resume f name i k).signal ≠ .yielded .nil) →
      ∀ handles c', (Event.wait handles,c') ∈ (dispatch E n ⟨c,[]⟩).2.trace → Blocked E c' handles) := by
  have hw : (⟨c,[]⟩ : World).Always (WaitsRight E) := fun x hx => by cases hx
  have ha := (waits_dispatch_drain_exit n).1 _ hw
  have hiff : ∀ handles c', (Event.wait handles,c') ∈ (dispatch E n ⟨c,[]⟩).2.trace →
      (Blocked E c' handles ↔ Indirect E c') := fun handles c' hin => (ha _ hin handles rfl).1
  exact ⟨hiff,fun hE handles c' hin => (hiff handles c' hin).mpr fun _ _ _ hy => hE _ _ _ _ hy.2⟩

/-- Every command yields the handle of a process twice. -/
def Env.spawning : Env := { Env.plain with
  resume := fun _ _ _ n => ⟨id,∅,if n < 2 then .yielded (.proc 7) else .finished⟩ }

/-- The command of `app` has yielded once. -/
def Core.withJob : Core := { Core.withCommand with
  pos := 1
  count := 1
  running := Finmap.singleton 1 ⟨.user 0,.str "app",1,.proc 7⟩ }

/-- A job that waits for its process. -/
theorem waits_for_app : ∃ c',
    (Event.wait [.proc 7],c') ∈ (dispatch Env.spawning 3 ⟨Core.withJob,[]⟩).2.trace ∧
      Blocked Env.spawning c' [.proc 7] := by
  have h : ∃ x ∈ (dispatch Env.spawning 3 ⟨Core.withJob,[]⟩).2.trace, x.1 = .wait [.proc 7] := by
    decide +kernel
  obtain ⟨⟨e,c'⟩,hin,rfl⟩ := h
  refine ⟨c',hin,(dispatch_blocked_iff Env.spawning 3 Core.withJob).2 ?_ _ c' hin⟩
  intro f name i k
  unfold Env.spawning
  dsimp only
  split_ifs <;> simp

/-- Two job slots; the command of `app` yields without a value, every other one a handle. -/
def Env.working : Env := { Env.plain with
  slots := 2
  resume := fun f _ _ n => ⟨id,∅,
    if n < 2 then .yielded (if f = .user 0 then .nil else .proc 7) else .finished⟩ }

/-- The makefile defines `app` and `lib`, and both are goals. -/
def Core.withLibrary : Core :=
  { (targetNewindex "lib" (.fn (.user 1)) Core.withCommand).2 with goals := {"app","lib"} }

/-- The dispatcher waits for the process of `lib` although `app` could go on. -/
theorem waits_for_idle : ∃ handles c',
    (Event.wait handles,c') ∈ (updateGoals Env.working ⟨Core.withLibrary,[]⟩).2.trace ∧
      handles = [.proc 7] ∧ ¬Blocked Env.working c' handles := by
  have h : ∃ x ∈ (updateGoals Env.working ⟨Core.withLibrary,[]⟩).2.trace, x.1 = .wait [.proc 7] ∧
      (x.2.running.lookup 1).any fun j => decide (j.Yielded Env.working 1 .nil) := by
    decide +kernel
  obtain ⟨⟨e,c'⟩,hin,rfl,hl⟩ := h
  refine ⟨_,c',hin,rfl,fun hb => ?_⟩
  obtain ⟨j,hj,hy⟩ := (Option.any_eq_true _ _).mp hl
  obtain ⟨p,hp⟩ := hb.waits 1 j hj
  cases hp.unique (of_decide_eq_true hy : j.Yielded Env.working 1 .nil)

end Presto
