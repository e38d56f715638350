import Presto.Engine.Dispatch

/-! Whole runs: the main loop begins every pass with kept books and a free slot, so the books
are kept at every event of a run and at its end. -/
namespace Presto
open Program Traced

namespace Build
variable {E : Env} (B : Build E)

/-- The books are kept, and there is a free slot. -/
def Free (w : World) : Prop := B.Books w ∧ w.now.count < E.slots

/-- The books are kept; what comes back leaves a free slot. -/
def Back {α : Type} (o : Outcome Value α) (w : World) : Prop :=
  B.Books w ∧ ((∃ a, o = .ret a) → w.now.count < E.slots)

variable {B} {w : World} {α β : Type}

theorem Free.back (h : B.Free w) (o : Outcome Value α) : B.Back o w := ⟨h.1,fun _ => h.2⟩

/-- The sequencing rule for `Back`. -/
theorem Back.bind {m : Engine α} {f : α → Engine β} (hm : wp m B.Back w)
    (hf : ∀ a w, B.Free w → wp (f a) B.Back w) : wp (m >>= f) B.Back w := by
  apply wp_bind_of hm
  · exact fun a w h => hf a w ⟨h.1,h.2 ⟨a,rfl⟩⟩
  · exact fun e w h => ⟨h.1,fun ⟨a,ha⟩ => by cases ha⟩
  · exact fun w h => ⟨h.1,fun ⟨a,ha⟩ => by cases ha⟩

theorem back_of_winds {m : Engine α} (hm : Moves B.Winds m) (h : B.Free w) : wp m B.Back w :=
  have hw := hm w h.1
  ⟨hw.1,fun _ => hw.2.2.trans_lt h.2⟩

theorem winds_heapless {f : Core → Core} (h : ∀ c : Core, c.Idles B.guarded (f c)) :
    Moves B.Winds (quietly (Prog.modify f) : Engine Unit) :=
  winds_of_rests (rests_modify fun w _ _ => h w.now)

/-- How the call for a goal ends. -/
def GoalVisited (B : Build E) (goal : ObjId) : Outcome Value (Except Value Value) → World → Prop
  | .ret r,w => B.Books w ∧ goal < w.now.next ∧
      (w.now.count < E.slots ∨ r = .ok Status.running.toValue) ∧
      (B.Method → r = .ok Status.running.toValue → 0 < w.now.count)
  | .raise _,w => B.Books w
  | .diverge,w => B.Books w

theorem visit_goal {goal : ObjId} (h : B.Free w) (hk : B.Knows w goal ∨ goal = mtTable) :
    wp (visit E (bringUpToDate E E.stack) goal) (B.GoalVisited goal) w := by
  rcases hk with hk | rfl
  · have hlt : ∀ w', B.Brought w goal w' → goal < w'.now.next :=
      fun w' hb => (hk.mono hb.next).lt_next hb.books
    apply wp_visit E (callBring_answered (fun o w h => bringUpToDate_answered E.stack h) ⟨h.1,hk,h.2⟩)
    · rintro v w' ⟨hb,hroom,hwaits⟩
      exact ⟨hb.books,hlt w' hb,hroom.imp_right fun hr => by rw [Outcome.ret.inj hr],fun hm hr =>
        hwaits hm (by rw [Except.ok.inj hr])⟩
    · rintro e w' ⟨hb,hroom,_⟩
      exact ⟨hb.books.emit id,hlt w' hb,.inl (hroom.resolve_right (by simp)),fun _ hr => by cases hr⟩
    · exact fun w' ha => ha.books
  · have hlt : mtTable < w.now.next :=
      (Nat.lt_of_lt_of_le (by decide) B.ready.sound.classes).trans_le h.1.stays.next
    apply wp_visit E (callBring_mt (bringUpToDate E E.stack) h.1)
    · rintro v w' ⟨⟨e,he⟩,_⟩
      cases he
    · rintro e w' ⟨_,rfl⟩
      exact ⟨h.1.emit id,hlt,.inl h.2,fun _ hr => by cases hr⟩
    · rintro w' ⟨⟨e,he⟩,_⟩
      cases he

/-- `make.exit` returns only with `-k`, and then it notes the failure and nothing else. -/
theorem makeExit_returns (n : ℕ) (w : World) : wp (makeExit E n) (fun o w' =>
    o = .ret () → w' = { w with now := { w.now with failure := true } }) w := by
  cases n with
  | zero => exact fun ho => by cases ho
  | succ n =>
    have hno : ∀ (o : Outcome Value Unit) (w' : World), (∀ a, o ≠ .ret a) → True →
        (o = .ret () → w' = { w with now := { w.now with failure := true } }) :=
      fun o w' ho _ he => absurd he (ho ())
    have htrue : ∀ {m : Engine Unit}, Keeps (fun _ : World => True) m := fun _ _ => trivial
    unfold makeExit
    rw [wp_bind_core,wp_ite,wp_ite]
    split_ifs
    · exact fun _ => rfl
    · apply htrue.wp_bind trivial _ hno
      intro _ w' _
      apply htrue.wp_bind trivial _ hno
      intro _ w' _
      apply htrue.wp_bind trivial _ hno
      exact fun _ _ _ ho => by cases ho
    · exact fun ho => by cases ho

theorem winds_makeExit (n : ℕ) : Moves B.Winds (makeExit E n) := (winds_dispatch_drain_exit n).2.2

theorem winds_reportGoal (goal : ObjId) (name : String) (status : Value) :
    Moves B.Winds (reportGoal E goal name status) := by
  have hremove : Moves B.Winds (quietly (Prog.modify fun c : Core =>
      { c with goals := c.goals.erase name }) : Engine Unit) :=
    winds_heapless fun c => Core.idles_of_heap rfl rfl rfl rfl rfl rfl rfl
  have hfailure : Moves B.Winds (reportFailure E goal name) := by
    refine moves_bind (moves_ite (moves_pure _) (winds_message _)) fun _ => ?_
    exact moves_bind (winds_of_rests rests_core) fun c => winds_messageIf _
  unfold reportGoal
  refine moves_ite (moves_pure _) (moves_ite ?_ (moves_ite ?_ ?_))
  · exact moves_bind hfailure fun _ => moves_bind (winds_makeExit _) fun _ => hremove
  · exact moves_bind (winds_message _) fun _ => hremove
  · exact moves_bind (winds_message _) fun _ => hremove

/-- How one goal is dealt with. -/
def GoalEnded (B : Build E) : Outcome Value (Step ℕ Empty) → World → Prop
  | .ret (.next _),w => B.Free w
  | _,w => B.Books w

theorem goalEnded_of_books {o : Outcome Value (Step ℕ Empty)} (ho : ∀ x, o ≠ .ret x) (h : B.Books w) :
    GoalEnded B o w := by
  cases o with
  | ret x => exact absurd rfl (ho x)
  | raise e => exact h
  | diverge => exact h

/-- The lookup of a goal finds a target, or `__target.mt`. -/
theorem lookupGoal_free (name : String) (h : B.Free w) : wp (do
    let v ← quietly (targetIndex name)
    quietly (asTable v)) (fun o w' => B.Free w' ∧ ∀ goal, o = .ret goal →
      B.Knows w' goal ∨ goal = mtTable) w := by
  have hw : B.Free { w with now := (targetIndex name w.now).2 } := by
    have hlook : Moves (B.Rests []) (quietly (targetIndex name) : Engine Value) :=
      rests_quietly (idles_targetIndex name)
    have hw := winds_of_rests hlook w h.1
    exact ⟨hw.1,hw.2.2.trans_lt h.2⟩
  have hlook : wp (quietly (targetIndex name) : Engine Value) (fun o w' => B.Free w' ∧ ∀ goal,
      o = .ret (.obj goal) → B.Knows w' goal ∨ goal = mtTable) w := by
    refine ⟨hw,fun goal hgoal => ?_⟩
    rcases targetIndex_known h.1 name (Prod.ext hgoal rfl) with ⟨hreg,_⟩ | ⟨rfl,hnext,_⟩
    · exact knows_or_mt hreg _
    · exact .inl (.inr ⟨h.1.stays.next,Nat.lt_of_lt_of_eq (Nat.lt_succ_self _) hnext.symm⟩)
  apply wp_bind_of hlook
  · rintro v w' ⟨hf,hk⟩
    cases v with
    | obj goal => exact ⟨hf,fun g hg => by cases hg; exact hk goal rfl⟩
    | _ => exact ⟨hf,fun g hg => by cases hg⟩
  · exact fun e w' hw => ⟨hw.1,fun g hg => by cases hg⟩
  · exact fun w' hw => ⟨hw.1,fun g hg => by cases hg⟩

theorem goalStatus_room {goal : ObjId} {r : Except Value Value} (h : B.GoalVisited goal (.ret r) w) :
    wp (goalStatus goal r) (fun o w' => B.Books w' ∧ ∀ s, o = .ret s →
      w'.now.count < E.slots ∨ s = Status.running.toValue) w := by
  obtain ⟨hb,hlt,hroom,_⟩ := h
  cases r with
  | ok s => exact ⟨hb,fun s' hs => by cases hs; exact hroom.imp_right fun he => by cases he; rfl⟩
  | error e =>
    unfold goalStatus
    rw [wp_bind_setField]
    exact ⟨hb.idles (Core.idles_rawset_of_mem hlt (by decide)),fun _ _ =>
      .inl (hroom.resolve_right (by simp))⟩

theorem goalStep_ended (name : String) (k : ℕ) (h : B.Free w) :
    wp (goalStep E name k) (GoalEnded B) w := by
  unfold goalStep
  rw [← wp_bind_assoc]
  apply wp_bind_of (lookupGoal_free name h)
  · rintro goal w ⟨hf,hk⟩
    apply wp_bind_of (visit_goal hf (hk goal rfl))
    · intro r w' hv
      apply wp_bind_of (goalStatus_room hv)
      · rintro s w' ⟨hb,hroom⟩
        by_cases hs : s = Status.running.toValue
        · have hpure : reportGoal E goal name s = pure () := if_pos hs
          rw [hpure]
          apply wp_bind_ret rfl
          rw [wp_bind_core,wp_ite]
          split_ifs with hc
          · exact hb
          · exact ⟨hb,not_le.mp hc⟩
        · have hfree := (hroom s rfl).resolve_right hs
          have hkeep : Keeps B.Free (reportGoal E goal name s) := fun w hw =>
            have h' := winds_reportGoal goal name s w hw.1
            ⟨h'.1,h'.2.2.trans_lt hw.2⟩
          apply hkeep.wp_bind ⟨hb,hfree⟩
          · intro _ w hw
            rw [wp_bind_core,wp_ite]
            split_ifs
            · exact hw.1
            · exact hw
          · exact fun o w ho hw => goalEnded_of_books ho hw.1
      · exact fun _ _ hw => hw.1
      · exact fun _ hw => hw.1
    · exact fun _ _ hb => hb
    · exact fun _ hb => hb
  · exact fun _ _ hw => hw.1.1
  · exact fun _ hw => hw.1.1

theorem dispatch_back (n : ℕ) (h : B.Books w) : wp (dispatch E n) B.Back w :=
  ⟨((winds_dispatch_drain_exit n).1 w h).1,fun ⟨_,ha⟩ => dispatch_room n h ha⟩

theorem goalPass_back (h : B.Free w) : wp (goalPass E) B.Back w := by
  unfold goalPass
  rw [wp_bind_core]
  apply Back.bind (back_of_winds (winds_of_rests (rests_quietly (idles_enumerate E _))) h)
  intro order w' h'
  have hloop : wp (forEach (goalStep E) order 0) (fun _ w => B.Books w) w' := by
    apply wp_forEach fun _ _ w => B.Free w
    · intro name _ k w hw
      apply wp_mono (goalStep_ended name k hw)
      rintro ((_ | _ | e) | _ | _) w hw
      · exact hw
      · exact hw
      · cases e
      · exact hw
      · exact hw
    · exact fun _ _ hw => hw.1
    · exact h'
  apply wp_bind_of hloop
  · rintro (k | e) w' hw'
    · have hrun : wp (dispatchRunning E w.now.count) B.Back w' := by
        unfold dispatchRunning
        rw [wp_bind_core,wp_ite]
        split_ifs with hc
        · exact dispatch_back _ hw'
        · refine Free.back ⟨hw',?_⟩ _
          have hs := B.slots
          by_contra hge
          exact hc ⟨by omega,.inr (not_lt.mp hge)⟩
      exact Back.bind hrun fun _ w hw => hw.back _
    · cases e
  · exact fun _ w hw => ⟨hw,fun ⟨a,ha⟩ => by cases ha⟩
  · exact fun w hw => ⟨hw,fun ⟨a,ha⟩ => by cases ha⟩

theorem winds_defaultGoals : Moves B.Winds defaultGoals := by
  refine moves_bind (winds_of_rests rests_core) fun c => moves_ite (moves_pure _) (moves_ite ?_ ?_)
  · exact winds_of_rests (rests_raiseError _)
  · refine moves_bind (winds_of_rests (rests_quietly (idles_asTable _))) fun o => ?_
    split
    · exact winds_heapless fun c => Core.idles_of_heap rfl rfl rfl rfl rfl rfl rfl
    · exact winds_of_rests (rests_raiseError _)

theorem updateGoalsP_back (h : B.Free w) : wp (updateGoalsP E) B.Back w := by
  unfold updateGoalsP
  apply Back.bind (back_of_winds winds_defaultGoals h)
  intro _ w h
  have hloop : wp (repeatWhile (goalPass E) E.fuel) B.Back w := by
    apply wp_repeatWhile B.Free _ _ _ _ h
    · intro w hw
      apply wp_mono (goalPass_back hw)
      rintro (b | e | _) w h
      · have hf : B.Free w := ⟨h.1,h.2 ⟨b,rfl⟩⟩
        cases b
        · exact hf.back _
        · exact hf
      · exact ⟨h.1,fun ⟨a,ha⟩ => by cases ha⟩
      · exact ⟨h.1,fun ⟨a,ha⟩ => by cases ha⟩
    · exact fun w hw => hw.back _
  apply Back.bind hloop
  intro _ w h
  rw [wp_bind_core,wp_ite]
  split_ifs
  · exact Back.bind (back_of_winds (winds_message _) h) fun _ w h => h.back _
  · exact h.back _

/-- The books of a build that has not begun. -/
theorem free_origin (B : Build E) : B.Free ⟨B.origin,[]⟩ := by
  have hlookup : ∀ i j, B.origin.running.lookup i ≠ some j := by
    intro i j
    rw [B.ready.running]
    simp
  have hstatus : ∀ o, B.origin.rawget o "status" = .nil := B.ready.unbuilt
  refine ⟨⟨⟨.refl _ _,?_,⟨by simp,.nil⟩,.nil,by simp [starts]⟩,by simp [starts],by simp [starts],by simp [starts],
    fun i j h => absurd h (hlookup i j)⟩,?_⟩
  · constructor
    · exact fun o _ => .inl (hstatus o)
    · rw [B.ready.count,B.ready.running]
      simp
    · rw [B.ready.count]
      have := B.slots
      omega
    · exact fun i j h => absurd h (hlookup i j)
    · exact fun i j h => absurd h (hlookup i j)
    · exact fun i j k h => absurd h (hlookup i j)
    · exact fun i i' j j' o h => absurd h (hlookup i j)
    · exact fun i j h => absurd h (hlookup i j)
    · intro _ o _ h
      rw [hstatus] at h
      cases h
    · intro o _ h
      rw [hstatus] at h
      cases h
  · change B.origin.count < E.slots
    rw [B.ready.count]
    have := B.slots
    omega

/-- The books are kept to the end of every run. -/
theorem updateGoals_books (B : Build E) : B.Books (updateGoals E ⟨B.origin,[]⟩).2 := by
  have hrun : wp (updateGoals E) (fun _ w => B.Books w) ⟨B.origin,[]⟩ := by
    unfold updateGoals
    rw [wp_bind_modify_quietly]
    have hfree : B.Free ⟨{ B.origin with deleteOnError := ∅ },[]⟩ := by
      have h := free_origin B
      exact ⟨h.1.idles (Core.idles_of_heap rfl rfl rfl rfl rfl rfl rfl),h.2⟩
    have hatt : wp (Prog.attempt (updateGoalsP E)) (fun _ w => B.Books w)
        ⟨{ B.origin with deleteOnError := ∅ },[]⟩ := by
      rw [wp_attempt]
      apply wp_mono (updateGoalsP_back hfree)
      rintro (_ | _ | _) w h <;> exact h.1
    apply wp_bind_of hatt
    · rintro (e | u) w hw
      · rw [wp_bind_core,wp_ite]
        split_ifs
        · exact hw
        · split
          · rw [wp_ite]
            split_ifs <;> exact hw
          · exact hw
          · exact hw
      · exact hw
    · exact fun _ _ hw => hw
    · exact fun _ hw => hw
  exact hrun

end Build
end Presto
