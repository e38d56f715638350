import Presto.Engine.BringUp

/-! The books over a whole run: the jobs wind down in `make.jobs.dispatch` and `make.exit`, and
the main loop never begins a pass with full slots. -/
namespace Presto
open Program Traced

theorem Core.rawset_rawset (c : Core) (o : ObjId) (key : String) (u v : Value) :
    (c.rawset o key u).rawset o key v = c.rawset o key v := by
  simp [Core.rawset,Obj.set,Function.update_idem]

section
variable {β : Type} {Q : Outcome Value β → World → Prop} {w : World} {k : String} {o : ObjId}

theorem wp_bind_indexValue (h : Finds w.now.registry k o) (f : Value → Engine β) :
    wp (quietly (indexValue (.str k)) >>= f) Q w ↔ wp (f (.obj o)) Q w := by
  have hr : (quietly (indexValue (.str k)) : Engine Value) w = (.ret (.obj o),w) := by
    simp only [quietly,Prog.traced,indexValue,run_targetIndex h]
  rw [wp,run_bind_of_ret hr]
  rfl

theorem wp_bind_asTable (f : ObjId → Engine β) :
    wp (quietly (asTable (.obj o)) >>= f) Q w ↔ wp (f o) Q w := Iff.rfl

end

namespace Build
variable {E : Env} (B : Build E)

/-- The books are kept, and no job is added. -/
def Winds (w w' : World) : Prop :=
  B.Books w → B.Books w' ∧ w.now.next ≤ w'.now.next ∧ w'.now.count ≤ w.now.count

instance : IsPreorder World B.Winds where
  refl _ h := ⟨h,le_rfl,le_rfl⟩
  trans _ _ _ h h' hb := by
    obtain ⟨hb',hn,hc⟩ := h hb
    obtain ⟨hb'',hn',hc'⟩ := h' hb'
    exact ⟨hb'',hn.trans hn',hc'.trans hc⟩

variable {B} {α : Type} {w : World} {i : ℕ} {j : Job} {o : ObjId}

theorem winds_of_rests {m : Engine α} (h : Moves (B.Rests []) m) : Moves B.Winds m := by
  intro w hb
  obtain ⟨hb',hi⟩ := h w hb (by simp)
  exact ⟨hb',hi.next,hi.count.le⟩

/-- A job ends, and the target that it names gets its last status. -/
theorem Books.finish (h : B.Books w) (hl : w.now.running.lookup i = some j)
    (hn : j.Names w.now.registry o) (hrun : w.now.rawget o "status" = Status.running.toValue)
    {s : Status} (hs : s = .updated ∨ s = .error) :
    B.Books { w with now := (w.now.removeJob i).rawset o "status" s.toValue } := by
  have ho : o < w.now.next := h.allocated (k := "status") (by rw [hrun]; exact toValue_ne_nil _)
  have hstat : ∀ q, ((w.now.removeJob i).rawset o "status" s.toValue).rawget q "status" =
      if q = o then s.toValue else w.now.rawget q "status" := by
    intro q
    rw [Core.rawget_rawset]
    simp only [and_true]
    rfl
  have hledger : B.Ledger { w with now := (w.now.removeJob i).rawset o "status" s.toValue } := by
    refine h.toLedger.move ?_ (h.accounts.removeJob hl hn hs) ⟨le_rfl,fun q _ => ?_⟩ le_rfl
    · have hremove : w.now.Stays B.guarded (w.now.removeJob i) := Core.stays_of_heap rfl rfl rfl rfl
      refine hremove.trans ?_
      exact Core.stays_status (c := w.now.removeJob i) ho _
    · rw [hstat]
      split_ifs with he
      · rw [he,hrun]
        exact .finish s hs
      · exact .same _
  refine h.move hledger (fun q hq => ?_) fun i' j' hl' => h.jobs i' j' (Core.lookup_removeJob hl').2
  rw [hstat]
  split_ifs
  · exact toValue_ne_nil s
  · exact hq

/-- How a job ends in the books. -/
def Finished (w : World) (_ : Outcome Value Unit) (w' : World) : Prop :=
  B.Books w' ∧ w.now.next ≤ w'.now.next ∧ w'.now.count < w.now.count

/-- The coroutine of a job is dead. -/
theorem finishJob_books (h : B.Books w) (hl : w.now.running.lookup i = some j) (err : Option Value) :
    wp (finishJob i j err) (Finished (B := B) w) w := by
  have hcount : w.now.count-1 < w.now.count := by omega
  unfold finishJob
  rw [wp_bind_modify_quietly]
  rcases h.accounts.target i j hl with ⟨k,hk⟩ | ⟨hnamed,hk⟩
  · obtain ⟨o,ho,hf,hrun⟩ := h.accounts.owner i j k hl hk
    rw [hk]
    unfold finishTarget
    rw [wp_bind_assoc,wp_bind_indexValue (w := { w with now := w.now.removeJob i }) hf,wp_bind_assoc,
      wp_bind_asTable,wp_bind_assoc,setStatus,wp_bind_setField]
    cases err with
    | none =>
      have hb := h.finish hl ⟨k,hk,hf⟩ hrun (s := .updated) (.inl rfl)
      exact ⟨hb.emit id,le_rfl,hcount⟩
    | some e =>
      have hb := h.finish hl ⟨k,hk,hf⟩ hrun (s := .error) (.inr rfl)
      dsimp only
      rw [wp_bind_assoc,wp_bind_indexValue
          (w := { w with now := (w.now.removeJob i).rawset o "status" Status.updated.toValue }) hf,
        wp_bind_assoc,wp_bind_asTable,wp_bind_assoc,setStatus,wp_bind_setField,Core.rawset_rawset,
        wp_bind_assoc,wp_bind_indexValue
          (w := { w with now := (w.now.removeJob i).rawset o "status" Status.error.toValue }) hf,
        wp_bind_assoc,wp_bind_asTable,wp_bind_assoc,wp_bind_setField]
      have herrmsg := Core.idles_rawset_of_mem (K := B.guarded) (v := e) (o := o)
        (c := (w.now.removeJob i).rawset o "status" Status.error.toValue) ho
        (show "errmsg" ∈ ["exists","timestamp","errmsg","dep_status"] by decide)
      have hb' := hb.idles herrmsg
      exact ⟨(hb'.emit id).emit id,le_rfl,hcount⟩
  · rw [hk]
    have hl' : B.Ledger { w with now := w.now.removeJob i } :=
      h.toLedger.move (Core.stays_of_heap rfl rfl rfl rfl) (h.accounts.dropJob hl hnamed)
        ⟨le_rfl,fun _ _ => .same _⟩ le_rfl
    exact ⟨h.move hl' (fun _ => id) fun i' j' hl' => h.jobs i' j' (Core.lookup_removeJob hl').2,
      le_rfl,hcount⟩

section Dispatch

theorem winds_message (v : Value) : Moves B.Winds (message v) := winds_of_rests (rests_message v)

theorem winds_messageIf (v : Value) : Moves B.Winds (messageIf v) := winds_of_rests (rests_messageIf v)

theorem winds_reportJob (j : Job) (v : Value) : Moves B.Winds (reportJob j v) :=
  moves_bind (winds_of_rests (rests_concatText _)) fun _ =>
    moves_bind (winds_message _) fun _ => winds_messageIf v

theorem winds_procWait (handles : List Value) : Moves B.Winds (procWait handles) :=
  winds_of_rests (moves_ite (rests_emit id) (rests_raiseError _))

theorem winds_finish {w : World} (hb : B.Books w) {i : ℕ} {j : Job}
    (hl : w.now.running.lookup i = some j) (err : Option Value) :
    wp (finishJob i j err) (fun _ w' => B.Books w' ∧ w.now.next ≤ w'.now.next ∧
      w'.now.count ≤ w.now.count) w :=
  wp_mono (finishJob_books hb hl err) fun _ _ h => ⟨h.1,h.2.1,h.2.2.le⟩

/-- A running job is resumed: nothing but the files and its memory changes. -/
theorem resumeJob_ret (h : B.Books w) (hl : w.now.running.lookup i = some j) :
    ∃ s c, resumeJob E i j w = (.ret s,{ w with now := c }) ∧ w.now.Idles B.guarded c ∧
      ∀ v, s = .yielded v → (E.resume j.command j.target i j.resumed).signal = .yielded v ∧
        j.command.yields E j.target i j.resumed = true := by
  obtain ⟨s,c,hr,hi,hv⟩ := resumeCommand_ret (E := E) (B := B) j.command j.target i j.resumed w.now
  refine ⟨s,c,?_,hi,fun v hs => ⟨hv v hs,yields_of_resumeCommand E (by rw [hr,hs])⟩⟩
  unfold resumeJob
  rw [if_pos (h.accounts.suspended i j hl)]
  simp only [quietly,Prog.traced,hr]

theorem Books.yield (h : B.Books w) (hl : w.now.running.lookup i = some j) (v : Value)
    (hv : ∃ v, (E.resume j.command j.target i j.resumed).signal = .yielded v)
    (hy : j.command.yields E j.target i j.resumed = true) : B.Books { w with now := w.now.yieldJob i j v } := by
  refine h.move (h.toLedger.move (Core.stays_of_heap rfl rfl rfl rfl) (h.accounts.yieldJob hl v hy)
    ⟨le_rfl,fun _ _ => .same _⟩ le_rfl) (fun _ => id) fun i' j' hl' => ?_
  rcases Core.lookup_insert_running hl' with ⟨rfl,rfl⟩ | ⟨_,hold⟩
  · have hj := h.jobs i' j hl
    refine ⟨fun n hn => ?_,hj.command,hj.target⟩
    rcases Nat.lt_succ_iff_lt_or_eq.mp hn with hn | rfl
    · exact hj.yielded n hn
    · exact hv
  · exact h.jobs i' j' hold

theorem winds_dispatchJob {exit : Engine Unit} (hexit : Moves B.Winds exit) (i : ℕ)
    (waiting : List Value) : Moves B.Winds (dispatchJob E exit i waiting) := by
  intro w h
  have hwp : wp (dispatchJob E exit i waiting) (fun _ w' => B.Books w' ∧ w.now.next ≤ w'.now.next ∧
      w'.now.count ≤ w.now.count) w := by
    unfold dispatchJob
    rw [wp_bind_core]
    cases hl : w.now.running.lookup i with
    | none => exact ⟨h,le_rfl,le_rfl⟩
    | some j =>
      dsimp only
      rw [wp_bind_emit]
      have he := h.emit (e := .resuming i) id
      obtain ⟨signal,c,hr,hi,hyield⟩ := resumeJob_ret he hl
      apply wp_bind_ret hr
      have hc := he.idles hi
      have hl' : c.running.lookup i = some j := by rw [hi.running]; exact hl
      have hbound : ∀ w', B.Books w' → c.next ≤ w'.now.next → w'.now.count ≤ c.count →
          B.Books w' ∧ w.now.next ≤ w'.now.next ∧ w'.now.count ≤ w.now.count := fun w' hb hn hc' =>
        ⟨hb,hi.next.trans hn,hc'.trans hi.count.le⟩
      cases signal with
      | finished =>
        apply wp_bind_of (winds_finish hc hl' none)
        · exact fun _ w' hw => hbound w' hw.1 hw.2.1 hw.2.2
        · exact fun _ w' hw => hbound w' hw.1 hw.2.1 hw.2.2
        · exact fun w' hw => hbound w' hw.1 hw.2.1 hw.2.2
      | raised v =>
        apply wp_bind_of (winds_finish hc hl' (some v))
        · intro _ w' hw
          have hrest := (moves_bind (winds_reportJob (B := B) j v) fun _ => moves_bind hexit fun _ =>
            moves_pure (Step.next waiting : Step (List Value) Empty)) w' hw.1
          exact hbound _ hrest.1 (hw.2.1.trans hrest.2.1) (hrest.2.2.trans hw.2.2)
        · exact fun _ w' hw => hbound w' hw.1 hw.2.1 hw.2.2
        · exact fun w' hw => hbound w' hw.1 hw.2.1 hw.2.2
      | yielded v =>
        dsimp only
        rw [wp_bind_modify_quietly,wp_bind_emit]
        exact hbound _ ((hc.yield hl' _ ⟨v,(hyield v rfl).1⟩ (hyield v rfl).2).emit id) le_rfl le_rfl
  exact hwp

theorem winds_enumerateJobs : Moves B.Winds (quietly (enumerateJobs E) : Engine (List ℕ)) :=
  winds_of_rests (rests_quietly (idles_enumerateJobs E))

theorem winds_failure : Moves B.Winds
    (quietly (Prog.modify fun c : Core => { c with failure := true }) : Engine Unit) :=
  winds_of_rests (rests_modify fun _ _ _ => Core.idles_of_heap rfl rfl rfl rfl rfl rfl rfl)

/-- The dispatcher and `make.exit` only end jobs. -/
theorem winds_dispatch_drain_exit (n : ℕ) : Moves B.Winds (dispatch E n) ∧
    Moves B.Winds (drain E n) ∧ Moves B.Winds (makeExit E n) := by
  induction n with
  | zero => exact ⟨moves_diverge,moves_diverge,moves_diverge⟩
  | succ n ih =>
    obtain ⟨hdispatch,hdrain,hexit⟩ := ih
    have hcore : Moves B.Winds core := winds_of_rests rests_core
    have hraise : ∀ msg, Moves B.Winds (raiseError msg : Engine Unit) := fun msg =>
      winds_of_rests (rests_raiseError msg)
    refine ⟨?_,?_,?_⟩
    · unfold dispatch
      refine moves_bind hcore fun c => moves_bind winds_enumerateJobs fun order => ?_
      refine moves_bind (moves_forEach (winds_dispatchJob hexit) _ _) fun x => ?_
      rcases x with waiting | e
      · refine moves_bind hcore fun c' => moves_ite (moves_pure _) (moves_ite (moves_pure _) ?_)
        exact moves_bind (winds_procWait _) fun _ => hdispatch
      · cases e
    · unfold drain
      refine moves_bind hcore fun c => moves_ite ?_ (moves_pure _)
      exact moves_bind (moves_attempt hdispatch) fun _ => hdrain
    · unfold makeExit
      refine moves_bind hcore fun c => ?_
      refine moves_ite winds_failure (moves_ite ?_ (hraise _))
      refine moves_bind (winds_message _) fun _ => moves_bind hdrain fun _ => ?_
      exact moves_bind (winds_message _) fun _ => hraise _

/-- The dispatcher comes back with a free slot. -/
theorem dispatch_room (n : ℕ) (h : B.Books w) :
    wp (dispatch E n) (fun o w' => o = .ret () → w'.now.count < E.slots) w := by
  induction n generalizing w with
  | zero => exact fun hr => by cases hr
  | succ n ih =>
    unfold dispatch
    rw [wp_bind_core]
    have hno : ∀ (o : Outcome Value Unit) w', (∀ a, o ≠ .ret a) → B.Books w' →
        (o = .ret () → w'.now.count < E.slots) := fun o w' ho _ hr => absurd hr (ho ())
    have hloop : ∀ order, wp (forEach (dispatchJob E (makeExit E n)) order ([] : List Value))
        (fun _ w' => B.Books w' ∧ w'.now.count ≤ w.now.count)
        { w with now := { w.now with tick := w.now.tick+1 } } := by
      intro order
      have hb := (winds_enumerateJobs (B := B) w h).1
      have hm := moves_forEach (winds_dispatchJob (B := B) (winds_dispatch_drain_exit n).2.2) order []
        _ hb
      exact ⟨hm.1,hm.2.2⟩
    refine wp_bind_ret (m := quietly (enumerateJobs E)) rfl ?_
    apply wp_bind_of (hloop _)
    · rintro (waiting | e) w' ⟨hb,hc⟩
      · dsimp only
        rw [wp_bind_core,wp_ite,wp_ite]
        split_ifs with h₁ h₂
        · exact fun _ => h₁.2
        · intro _
          have hs := B.slots
          change w'.now.count < E.slots
          omega
        · exact (show Keeps B.Books (procWait waiting) from fun w hw => (winds_procWait waiting w hw).1).wp_bind
            hb (fun _ w' hb => ih hb) hno
      · cases e
    · exact fun _ _ _ hr => by cases hr
    · exact fun _ _ hr => by cases hr

end Dispatch

end Build
end Presto
