import Presto.Engine.Blame

/-! Whether a build ends without an error is settled before it begins, and with `-k` also what it starts. -/
namespace Presto
open Program Traced

/-- The goals stay, and nothing is said of a failure. -/
structure Core.Composed (c c' : Core) : Prop where
  goals : c'.goals = c.goals
  failure : c'.failure = c.failure

instance : IsPreorder Core Core.Composed where
  refl _ := ⟨rfl,rfl⟩
  trans _ _ _ h h' := ⟨h'.goals.trans h.goals,h'.failure.trans h.failure⟩

/-- What has been started stays so. -/
structure Composed (w w' : World) : Prop extends Core.Composed w.now w'.now where
  starts : ∀ s ∈ starts w, s ∈ starts w'

instance : IsPreorder World Composed where
  refl w := ⟨refl_of Core.Composed w.now,fun _ => id⟩
  trans _ _ _ h h' := ⟨trans_of Core.Composed h.toComposed h'.toComposed,fun s hs => h'.starts s (h.starts s hs)⟩

section
variable {E : Env}

theorem composed_of_calm (w w' : World) (h : Calm w w') : Composed w w' :=
  ⟨⟨h.goals,h.failure⟩,fun s hs => by rwa [h.starts]⟩

theorem composed_resumeCommand (f : Fn) (name : Value) (i n : ℕ) :
    Serves Core.Composed (resumeCommand E f name i n) := by
  refine serves_bind (serves_gets id) fun c => ?_
  split
  · exact serves_pure _
  · split
    · refine serves_ite (serves_pure _) ?_
      split
      · exact serves_bind (serves_modify fun _ => ⟨rfl,rfl⟩) fun _ => serves_pure _
      · exact serves_pure _
    · exact serves_pure _
  · exact serves_bind (serves_modify fun _ => ⟨rfl,rfl⟩) fun _ => serves_pure _

theorem composed_quietly {α : Type} {m : Lua α} (h : Serves Core.Composed m) : Serves Composed (quietly m) :=
  fun w => ⟨⟨(h w.now).1,fun _ => id⟩,(h w.now).2⟩

theorem composed_emit (e : Event) : Serves Composed (Prog.emit e : Engine Unit) := by
  refine fun w => ⟨⟨refl_of Core.Composed w.now,fun s hs => ?_⟩,by rintro ⟨⟩⟩
  exact ((List.sublist_cons_self (e,w.now) w.trace).filterMap _).subset hs

/-- Starting a job changes neither the goals nor the note of a failure. -/
theorem composed_jobsStart (o : ObjId) : Serves Composed (jobsStart E o) := by
  have hrecord : ∀ i j signal, Serves Composed (recordFirst o i j signal) := by
    intro i j signal
    refine serves_bind (composed_quietly (serves_modify fun c => ?_)) fun _ =>
      serves_ite (composed_emit _) (serves_pure _)
    cases signal <;> exact ⟨rfl,rfl⟩
  refine serves_bind (composed_quietly (serves_modify fun _ => ⟨rfl,rfl⟩)) fun _ => ?_
  refine serves_bind (serves_gets _) fun c => serves_bind (composed_emit _) fun _ => ?_
  split
  · refine serves_ite (serves_raise _) (serves_bind (composed_emit _) fun _ => ?_)
    refine serves_bind (composed_quietly (composed_resumeCommand _ _ _ _)) fun signal => ?_
    refine serves_bind (hrecord _ _ signal) fun _ => ?_
    exact serves_bind (composed_emit _) fun _ => serves_bind (serves_gets _) fun c => serves_pure _
  · exact serves_raise _

end

namespace Build
variable {E : Env} {B : Build E} {bad : ObjId → Prop} {w w' w₁ : World} {i : ℕ} {j : Job} {name : String} {α β : Type}

/-- A goal fails, or a target that has been started. -/
def Doomed (B : Build E) (bad : ObjId → Prop) (w : World) : Prop :=
  (∃ g ∈ B.origin.wanted, B.origin.Fails bad g) ∨ ∃ m o, B.Target m o ∧ Touched w o ∧ B.origin.Fails bad m

theorem Doomed.mono {P : Event → Prop} (h : B.Doomed bad w) (he : Emits P w w') : B.Doomed bad w' := by
  obtain h | ⟨m,o,ht,htouch,hfails⟩ := h
  · exact .inl h
  · exact .inr ⟨m,o,ht,htouch.mono he,hfails⟩

theorem Doomed.emit (h : B.Doomed bad w) (e : Event) : B.Doomed bad { w with trace := (e,w.now)::w.trace } :=
  h.mono (P := fun _ => True) ⟨[(e,w.now)],rfl,by simp⟩

theorem Doomed.of_composed (h : B.Doomed bad w) (hc : Composed w w') : B.Doomed bad w' := by
  obtain h | ⟨m,o,ht,⟨i,hi⟩,hfails⟩ := h
  · exact .inl h
  · exact .inr ⟨m,o,ht,⟨i,hc.starts _ hi⟩,hfails⟩

namespace Signs
variable {S : B.Signs}

/-- The books, the facts and the verdicts; a failure is only noted in a build that fails. -/
structure Sober (S : B.Signs) (bad : ObjId → Prop) (w : World) : Prop where
  books : B.Books w
  facts : S.Facts w
  verdicts : S.Verdicts bad w
  failure : w.now.failure = true → B.Doomed bad w

/-- An error stops a build only without `-k`, and only if the build fails. -/
def Settles (S : B.Signs) (bad : ObjId → Prop) (P : α → World → Prop) : Outcome Value α → World → Prop
  | .ret a,w => S.Sober bad w ∧ P a w
  | .raise _,w => (S.Sober bad w ∧ B.Doomed bad w) ∧ E.flags.keepGoing = false
  | .diverge,_ => True

theorem wp_bind_settles {m : Engine α} {f : α → Engine β} {P : α → World → Prop} {Q : β → World → Prop}
    (hm : wp m (S.Settles bad P) w) (hf : ∀ a w', S.Sober bad w' → P a w' → wp (f a) (S.Settles bad Q) w') :
    wp (m >>= f) (S.Settles bad Q) w := by
  apply wp_bind_of hm
  · exact fun a w' h => hf a w' h.1 h.2
  · exact fun _ _ h => h
  · exact fun _ _ => trivial

/-- A step that is no matter of verdicts. -/
theorem Sober.move (h : S.Sober bad w) (hb : B.Books w') (hf : S.Facts w') (hi : w.now.Idles B.guarded w'.now)
    (hm : Mute w w') (hfail : w'.now.failure = w.now.failure) : S.Sober bad w' :=
  ⟨hb,hf,h.verdicts.idles h.books.toLedger hi hm,fun ht => (h.failure (hfail.symm.trans ht)).mono hm.emits⟩

theorem Sober.emit (h : S.Sober bad w) {e : Event} (he : ¬e.Starts) :
    S.Sober bad { w with trace := (e,w.now)::w.trace } :=
  h.move (h.books.emit he) (h.facts.emit he) (.refl _ _) (mute_emit e w) rfl

/-- A step that writes to no table. -/
theorem Sober.of_heap (h : S.Sober bad w) (hr : B.Rooted) {c : Core} (hheap : c.heap = w.now.heap)
    (hnext : c.next = w.now.next) (hi : w.now.Idles B.guarded c) (hfiles : c.files = w.now.files)
    (hfail : c.failure = true → B.Doomed bad w) : S.Sober bad { w with now := c } := by
  have hm : Mute w { w with now := c } := ⟨Core.mute_of_heap hheap hnext,⟨[],rfl,by simp⟩⟩
  have hbare : w.now.Bare B.guarded c := Core.bare_of_heap hheap hnext hfiles
  have hinv := S.sees h.books.toLedger h.facts.inv hi.toStays hbare.sees
  exact ⟨h.books.idles hi,h.facts.move hr h.books.toLedger hi hbare.firm hinv,h.verdicts.idles h.books.toLedger hi hm,
    fun ht => (hfail ht).mono hm.emits⟩

/-- A message that can be printed is printed. -/
theorem Sober.print (h : S.Sober bad w) {v : Value} (hv : v.Printable) :
    wp (messageIf v) (Rets fun _ w' => S.Sober bad w' ∧ w'.now = w.now ∧ Emits (fun _ => True) w w') w := by
  obtain rfl | ⟨s,rfl⟩ | ⟨n,rfl⟩ := hv
  · exact ⟨h,rfl,refl_of (Emits fun _ => True) w⟩
  · exact ⟨h.emit id,rfl,⟨[(.printed (.str s),w.now)],rfl,by simp⟩⟩
  · exact ⟨h.emit id,rfl,⟨[(.printed (.num n),w.now)],rfl,by simp⟩⟩

section
variable (T : S.Trial bad)
include T

/-- The coroutine of a job is dead. If it has raised an error, its target fails. -/
theorem Trial.finishJob_rets (h : S.Sober bad w) (hl : w.now.running.lookup i = some j) (err : Option Value)
    (hgood : err = none → ∀ o, B.Runs o j.command j.target → S.Good o w)
    (herr : ∀ e, err = some e → e.Printable ∧ ∀ o, B.Runs o j.command j.target → bad o) :
    wp (finishJob i j err) (Rets fun _ w' => S.Sober bad w' ∧ (∀ e, err = some e → B.Doomed bad w')) w := by
  obtain ⟨o,hrun,hi,hs⟩ := h.facts.jobs i j hl
  have htouch : Touched w o := ⟨i,hi⟩
  obtain ⟨k,hk,_,hfind⟩ := hrun.name
  have hfind : Finds w.now.registry k o := by rw [h.books.registry]; exact hfind
  obtain ⟨m,ht⟩ := hrun.target
  have hkeep := wp_and (finishJob_books h.books hl err) (finishJob_minds T.rooted h.books h.facts hl err hgood)
  have hrets : wp (finishJob i j err) (Rets fun _ w' => (S.Verdicts bad w' ∧ w'.now.failure = w.now.failure) ∧
      Emits (fun _ => True) w w' ∧ (∀ e, err = some e → B.Doomed bad w')) w := by
    unfold finishJob
    rw [wp_bind_modify_quietly,hk]
    unfold finishTarget
    rw [wp_bind_assoc,wp_bind_indexValue (w := { w with now := w.now.removeJob i }) hfind,wp_bind_assoc,
      wp_bind_asTable,wp_bind_assoc,setStatus,wp_bind_setField]
    cases err with
    | none =>
      obtain ⟨_,ha⟩ := h.facts.finish T.rooted h.books hl hrun hs (s := .updated) (.inl ⟨rfl,hgood rfl o hrun⟩)
      have hmute : w.now.Mute ((w.now.removeJob i).rawset o "status" Status.updated.toValue) :=
        trans_of Core.Mute (show w.now.Mute (w.now.removeJob i) from Core.mute_of_heap rfl rfl)
          (Core.mute_rawset (show "status" ∉ ["errmsg","deps","dep_status","deps_newer"] by decide))
      have hv : S.Verdicts bad { w with now := (w.now.removeJob i).rawset o "status" Status.updated.toValue } := by
        refine h.verdicts.move h.books.toLedger ha.advances (fun m p hp he => ?_) ⟨hmute,⟨[],rfl,by simp⟩⟩
        change ((w.now.removeJob i).rawset o "status" Status.updated.toValue).rawget p "status" = _ at he
        rw [Core.rawget_rawset] at he
        split_ifs at he
        · cases he
        · exact he
      exact ⟨⟨hv.emit _,rfl⟩,⟨[(.processed i,_)],rfl,by simp⟩,fun e he => by cases he⟩
    | some e =>
      obtain ⟨hprint,hbad⟩ := herr e rfl
      obtain ⟨_,ha⟩ := h.facts.finish T.rooted h.books hl hrun hs (s := .error) (.inr rfl)
      dsimp only
      rw [wp_bind_assoc,wp_bind_indexValue
          (w := { w with now := (w.now.removeJob i).rawset o "status" Status.updated.toValue }) hfind,
        wp_bind_assoc,wp_bind_asTable,wp_bind_assoc,setStatus,wp_bind_setField,Core.rawset_rawset,
        wp_bind_assoc,wp_bind_indexValue
          (w := { w with now := (w.now.removeJob i).rawset o "status" Status.error.toValue }) hfind,
        wp_bind_assoc,wp_bind_asTable,wp_bind_assoc,wp_bind_setField]
      have hemits : Emits (fun _ => True) w { w with
          now := ((w.now.removeJob i).rawset o "status" Status.error.toValue).rawset o "errmsg" e } := ⟨[],rfl,by simp⟩
      have hblamed : ∀ m, B.Target m o → B.Blamed bad { w with
          now := ((w.now.removeJob i).rawset o "status" Status.error.toValue).rawset o "errmsg" e } o := by
        intro m hm
        refine .command htouch ?_ (fun hfresh => h.facts.sure (o,i) hi (T.fresh hm hfresh)) (hbad o hrun)
        rw [hrun.command]
        rfl
      have hadv := trans_of Core.Advances ha.advances (Core.advances_note o e)
      have hv : S.Verdicts bad { w with
          now := ((w.now.removeJob i).rawset o "status" Status.error.toValue).rawset o "errmsg" e } := by
        refine h.verdicts.giveUp (o := o) h.books.toLedger hadv rfl (fun q hq => ?_) (fun q n hn => ?_) (fun q => ?_)
          hemits hblamed fun _ n hn => .inl (h.facts.closed m o ht (.inl hs) n hn)
        · simp [hq]
          rfl
        · simp only [List.mem_cons,List.not_mem_nil,or_false] at hn
          obtain rfl | rfl | rfl := hn <;> simp <;> rfl
        · by_cases hq : q = o
          · right
            simpa [hq] using hprint
          · left
            simp [hq]
            rfl
      have hlast : Emits (fun _ => True) w ⟨((w.now.removeJob i).rawset o "status" Status.error.toValue).rawset o "errmsg" e,
            (.processed i,((w.now.removeJob i).rawset o "status" Status.error.toValue).rawset o "errmsg" e)::
            (.marked o,((w.now.removeJob i).rawset o "status" Status.error.toValue).rawset o "errmsg" e)::w.trace⟩ :=
          ⟨[(.processed i,_),(.marked o,_)],rfl,by simp⟩
      exact ⟨⟨(hv.emit _).emit _,rfl⟩,hlast,fun _ _ => .inr ⟨m,o,ht,htouch.mono hlast,(hblamed m ht).fails ht⟩⟩
  apply wp_mono (wp_and hkeep hrets)
  intro r w' hw
  obtain ⟨⟨hfin,hf,_⟩,hret⟩ := hw
  apply hret.imp
  intro _ hp
  exact ⟨⟨hfin.1,hf,hp.1.1,fun hfail => (h.failure (hp.1.2.symm.trans hfail)).mono hp.2.1⟩,hp.2.2⟩

omit T in
/-- What a running job is resumed with. -/
theorem resume_of_job (hb : B.Books w) (hl : w.now.running.lookup i = some j) {s : Signal} {c : Core}
    (hrun : resumeJob E i j w = (.ret s,{ w with now := c })) :
    resumeCommand E j.command j.target i j.resumed w.now = (.ret s,c) := by
  unfold resumeJob at hrun
  rw [if_pos (hb.accounts.suspended i j hl)] at hrun
  simp only [quietly,Prog.traced] at hrun
  obtain ⟨h₁,h₂⟩ := Prod.mk.inj hrun
  exact Prod.ext h₁ (congrArg Traced.now h₂)

/-- All handles are those of processes. -/
def Handles (waiting : List Value) : Prop := ∀ v ∈ waiting, ∃ p, v = .proc p

/-- One job is resumed. -/
theorem Trial.dispatchJob_settles {exit : Engine Unit} (h : S.Sober bad w)
    (hexit : ∀ w', S.Sober bad w' → B.Doomed bad w' → wp exit (S.Settles bad fun _ _ => True) w') {waiting : List Value}
    (hwait : Handles waiting) : wp (dispatchJob E exit i waiting) (S.Settles bad fun x _ =>
      ∃ waiting', x = .next waiting' ∧ Handles waiting') w := by
  unfold dispatchJob
  rw [wp_bind_core]
  cases hl : w.now.running.lookup i with
  | none => exact ⟨h,waiting,rfl,hwait⟩
  | some j =>
    dsimp only
    rw [wp_bind_emit]
    have h' := h.emit (e := .resuming i) id
    obtain ⟨signal,c,hrun,hi,hyield⟩ := resumeJob_ret h'.books hl
    apply wp_bind_ret hrun
    obtain ⟨hf,hgood,_⟩ := resumeJob_facts h'.books h'.facts hl List.mem_cons_self hrun
    have hres := resume_of_job h'.books hl hrun
    have hanswer : ∀ o, B.Runs o j.command j.target → B.origin.CanAnswer E o signal := by
      intro o hjob
      obtain ⟨m,ht⟩ := hjob.target
      obtain ⟨k,hk,hname,_⟩ := hjob.name
      rw [hk] at hres
      exact ⟨m,j.command,k,i,j.resumed,w.now,c,ht.1,ht.2,hjob.command,hname,(T.pristine h.facts.inv).reached,hres⟩
    have hmute : Mute { w with trace := (.resuming i,w.now)::w.trace } ⟨c,(.resuming i,w.now)::w.trace⟩ := by
      have hm := mute_resumeCommand (E := E) j.command j.target i j.resumed w.now
      rw [hres] at hm
      exact ⟨hm,⟨[],rfl,by simp⟩⟩
    have hfail : c.failure = w.now.failure := by
      have hcomposed := (composed_resumeCommand (E := E) j.command j.target i j.resumed w.now).1
      rw [hres] at hcomposed
      exact hcomposed.failure
    have hs : S.Sober bad ⟨c,(.resuming i,w.now)::w.trace⟩ := h'.move (h'.books.idles hi) hf hi hmute hfail
    have hl' : c.running.lookup i = some j := by rw [hi.running]; exact hl
    cases signal with
    | finished =>
      apply wp_bind_rets (T.finishJob_rets hs hl' none (fun _ => hgood rfl) fun e he => by cases he)
      exact fun _ _ hw => ⟨hw.1,waiting,rfl,hwait⟩
    | raised v =>
      obtain ⟨o,hjob,_⟩ := hf.jobs i j hl'
      have hv : v.Printable := T.spoken.raised o v (hanswer o hjob)
      obtain ⟨k,hk,_⟩ := hjob.name
      apply wp_bind_rets (T.finishJob_rets hs hl' (some v) (fun he => by cases he) fun e he => ?_)
      · intro _ w₁ hw
        obtain ⟨hs₁,hdoomed⟩ := hw
        have hd := hdoomed v rfl
        unfold reportJob
        rw [hk,wp_bind_assoc]
        apply wp_bind_rets (rets_concatText k w₁)
        intro text w₂ hw
        obtain ⟨rfl,rfl⟩ := hw
        rw [wp_bind_assoc]
        refine wp_bind_ret (m := message _) rfl ?_
        have hmsg := hs₁.emit (e := .printed (.str ("Error updating target '" ++ text ++ "'."))) id
        apply wp_bind_rets (hmsg.print hv)
        intro _ w₃ hw
        obtain ⟨hs₃,_,he⟩ := hw
        apply wp_bind_settles (hexit w₃ hs₃ ((hd.emit _).mono he))
        exact fun _ w' hs' _ => ⟨hs',waiting,rfl,hwait⟩
      · cases he
        exact ⟨hv,fun o hjob => T.judged.raised o v (hanswer o hjob)⟩
    | yielded v =>
      obtain ⟨o,hjob,_⟩ := hf.jobs i j hl'
      have hv := T.spoken.yielded o v (hanswer o hjob)
      dsimp only
      rw [wp_bind_modify_quietly,wp_bind_emit]
      have hb := (hs.books.yield hl' (if v = .nil then j.handle else v) ⟨v,(hyield v rfl).1⟩ (hyield v rfl).2)
      have hf' : S.Facts ⟨c.yieldJob i j (if v = .nil then j.handle else v),(.resuming i,w.now)::w.trace⟩ := by
        refine hs.facts.rerun hs.books.toLedger rfl rfl rfl rfl rfl fun i' j' hl'' => ?_
        obtain ⟨rfl,rfl⟩ | ⟨_,hold⟩ := Core.lookup_insert_running hl''
        · exact hs.facts.jobs i' j hl'
        · exact hs.facts.jobs i' j' hold
      have ha : B.Along ⟨c,(.resuming i,w.now)::w.trace⟩
          ⟨c.yieldJob i j (if v = .nil then j.handle else v),(.resuming i,w.now)::w.trace⟩ := .of_heap rfl rfl rfl rfl
      have hm : Mute ⟨c,(.resuming i,w.now)::w.trace⟩
          ⟨c.yieldJob i j (if v = .nil then j.handle else v),(.resuming i,w.now)::w.trace⟩ :=
        ⟨Core.mute_of_heap rfl rfl,⟨[],rfl,by simp⟩⟩
      have hverdicts := hs.verdicts.move hs.books.toLedger ha.advances (fun _ _ _ he => he) hm
      have hlast : S.Sober bad ⟨c.yieldJob i j (if v = .nil then j.handle else v),(.resuming i,w.now)::w.trace⟩ :=
        ⟨hb,hf',hverdicts,fun hfail => (hs.failure hfail).mono hm.emits⟩
      refine ⟨hlast.emit id,_,rfl,fun u hu => ?_⟩
      obtain rfl | hp := hv
      · rw [if_pos rfl] at hu
        exact hwait u hu
      · rw [if_neg (by obtain ⟨p,rfl⟩ := hp; simp)] at hu
        obtain hu | hu := List.mem_append.mp hu
        · exact hwait u hu
        · rw [List.mem_singleton.mp hu]
          exact hp

omit T in
theorem Sober.wait (h : S.Sober bad w) {waiting : List Value} (hwait : Handles waiting) :
    wp (procWait waiting) (S.Settles bad fun _ _ => True) w := by
  unfold procWait
  rw [if_pos]
  · exact ⟨h.emit id,trivial⟩
  · rw [List.all_eq_true]
    intro v hv
    obtain ⟨p,rfl⟩ := hwait v hv
    rfl

/-- The dispatcher and `make.exit` raise an error only without `-k`, and only if the build fails. -/
theorem Trial.dispatch_drain_exit_settle (n : ℕ) :
    (∀ w, S.Sober bad w → wp (dispatch E n) (S.Settles bad fun _ _ => True) w) ∧
    (∀ w, S.Sober bad w → wp (drain E n) (S.Settles bad fun _ _ => True) w) ∧
    (∀ w, S.Sober bad w → B.Doomed bad w → wp (makeExit E n) (S.Settles bad fun _ _ => True) w) := by
  induction n with
  | zero => exact ⟨fun _ _ => trivial,fun _ _ => trivial,fun _ _ _ => trivial⟩
  | succ n ih =>
    obtain ⟨hdispatch,hdrain,hexit⟩ := ih
    refine ⟨fun w h => ?_,fun w h => ?_,fun w h hd => ?_⟩
    · unfold dispatch
      rw [wp_bind_core]
      have hnext : S.Sober bad { w with now := { w.now with tick := w.now.tick+1 } } :=
        h.of_heap T.rooted rfl rfl (Core.idles_of_heap rfl rfl rfl rfl rfl rfl rfl) rfl h.failure
      refine wp_bind_ret (m := quietly (enumerateJobs E)) rfl ?_
      have hloop : ∀ order, wp (forEach (dispatchJob E (makeExit E n)) order ([] : List Value))
          (S.Settles bad fun x _ => ∀ waiting, x = .fell waiting → Handles waiting)
          { w with now := { w.now with tick := w.now.tick+1 } } := by
        intro order
        apply wp_forEach fun _ waiting w' => S.Sober bad w' ∧ Handles waiting
        · intro i _ waiting w' hw
          apply wp_mono (T.dispatchJob_settles (i := i) hw.1 hexit hw.2)
          intro r w'' hr
          cases r with
          | ret x =>
            obtain ⟨hs,waiting',rfl,hwait⟩ := hr
            exact ⟨hs,hwait⟩
          | raise e => exact hr
          | diverge => exact hr
        · intro waiting w' hw
          refine ⟨hw.1,fun waiting' he => ?_⟩
          cases he
          exact hw.2
        · exact ⟨hnext,fun v hv => by cases hv⟩
      apply wp_bind_settles (hloop _)
      intro x w' hs hwait
      cases x with
      | left e => cases e
      | fell waiting =>
        dsimp only
        rw [wp_bind_core,wp_ite,wp_ite]
        split_ifs
        · exact ⟨hs,trivial⟩
        · exact ⟨hs,trivial⟩
        · apply wp_bind_settles (hs.wait (hwait waiting rfl))
          exact fun _ w'' hs _ => hdispatch w'' hs
    · unfold drain
      rw [wp_bind_core,wp_ite]
      split_ifs
      · have hatt : wp (Prog.attempt (dispatch E n)) (S.Settles bad fun _ _ => True) w := by
          rw [wp_attempt]
          apply wp_mono (hdispatch w h)
          intro r w' hr
          cases r with
          | ret a => exact hr
          | raise e => exact ⟨hr.1.1,trivial⟩
          | diverge => trivial
        apply wp_bind_settles hatt
        exact fun _ w' hs _ => hdrain w' hs
      · exact ⟨h,trivial⟩
    · unfold makeExit
      rw [wp_bind_core,wp_ite,wp_ite]
      split_ifs with hk hc
      · exact ⟨h.of_heap T.rooted rfl rfl (Core.idles_of_heap rfl rfl rfl rfl rfl rfl rfl) rfl fun _ => hd,trivial⟩
      · have hstop : E.flags.keepGoing = false := by simpa using hk
        refine wp_bind_ret (m := message _) rfl ?_
        have hmoved : ∀ w', wp (drain E n) (fun _ w'' => Emits (fun _ => True) w' w'') w' :=
          (emits_dispatch_drain_exit E (fun _ _ => trivial) n).2.1
        apply wp_bind_settles (P := fun _ w' => B.Doomed bad w') ?_
        · intro _ w' hs hd
          refine wp_bind_ret (m := message _) rfl ?_
          exact ⟨⟨hs.emit id,hd.emit _⟩,hstop⟩
        · have hw := wp_and (hdrain _ (h.emit (e := .printed (.str "Waiting for other jobs to finish...")) id))
            (hmoved _)
          apply wp_mono hw
          intro r w' hr
          cases r with
          | ret a => exact ⟨hr.1.1,(hd.emit _).mono hr.2⟩
          | raise e => exact hr.1
          | diverge => trivial
      · exact ⟨⟨h,hd⟩,by simpa using hk⟩

omit T in
/-- Each goal is still on the list, or has been tried. -/
structure Chased (S : B.Signs) (w : World) : Prop where
  goals : w.now.goals ⊆ B.origin.wanted
  tried : ∀ g ∈ B.origin.wanted, g ∈ w.now.goals ∨ S.Tried w.now g

omit T in
theorem Chased.step (h : S.Chased w) (hb : B.Books w) (ha : w.now.Advances w'.now) (hg : w'.now.goals = w.now.goals) :
    S.Chased w' := by
  constructor
  · rw [hg]
    exact h.goals
  · intro g hmem
    rw [hg]
    exact (h.tried g hmem).imp_right fun ht => ht.mono hb.stays.next ha

/-- A goal that has been tried is taken off the list. -/
theorem Trial.remove_settles (h : S.Sober bad w) (hc : S.Chased w) (htried : S.Tried w.now name) :
    wp (quietly (Prog.modify fun c : Core => { c with goals := c.goals.erase name }) : Engine Unit)
      (S.Settles bad fun _ w' => S.Chased w') w := by
  have hi : w.now.Idles B.guarded { w.now with goals := w.now.goals.erase name } :=
    Core.idles_of_heap rfl rfl rfl rfl rfl rfl rfl
  have hold : ∀ {n}, S.Tried w.now n → S.Tried { w.now with goals := w.now.goals.erase name } n := fun hn =>
    hn.mono h.books.stays.next hi.advances
  refine ⟨h.of_heap T.rooted rfl rfl hi rfl h.failure,(Finset.erase_subset _ _).trans hc.goals,fun g hg => ?_⟩
  by_cases he : g = name
  · subst he
    exact .inr (hold htried)
  · exact (hc.tried g hg).imp (fun hmem => Finset.mem_erase.mpr ⟨he,hmem⟩) hold

/-- The report on a goal that has failed. -/
theorem Trial.reportFailure_rets (h : S.Sober bad w) (hc : S.Chased w) {goal : ObjId} (hk : B.Knows w goal)
    (hd : B.Doomed bad w) (htried : S.Tried w.now name) : wp (reportFailure E goal name) (Rets fun _ w' =>
      (S.Sober bad w' ∧ S.Chased w') ∧ B.Doomed bad w' ∧ S.Tried w'.now name) w := by
  unfold reportFailure failureLine
  rw [if_neg (by simp [T.question])]
  refine wp_bind_ret (m := message _) rfl ?_
  rw [wp_bind_core]
  have h' := h.emit (e := .printed (.str ("Error updating goal '" ++ name ++ "'."))) id
  apply wp_mono (h'.print (T.attr_printable h.books h.verdicts hk))
  intro r w' hr
  apply hr.imp
  intro _ hp
  obtain ⟨hs,hnow,he⟩ := hp
  rw [hnow]
  refine ⟨⟨hs,hc.step h.books ?_ (by rw [hnow])⟩,(hd.emit _).mono he,htried⟩
  rw [hnow]
  exact refl_of Core.Advances w.now

theorem Trial.reportGoal_settles (h : S.Sober bad w) (hc : S.Chased w) {goal : ObjId} (hk : B.Knows w goal) {s : Value}
    (hdoomed : s = Status.error.toValue → B.Doomed bad w)
    (htried : s ≠ Status.running.toValue → S.Tried w.now name) :
    wp (reportGoal E goal name s) (S.Settles bad fun _ w' => S.Chased w') w := by
  unfold reportGoal
  rw [wp_ite,wp_ite,wp_ite]
  split_ifs with hrun herr hnone
  · exact ⟨h,hc⟩
  · apply wp_bind_rets (T.reportFailure_rets h hc hk (hdoomed herr) (htried hrun))
    intro _ w' hw
    obtain ⟨⟨hs,hc'⟩,hd,htried'⟩ := hw
    have hexit := wp_and ((T.dispatch_drain_exit_settle E.fuel).2.2 w' hs hd) (makeExit_returns E.fuel w')
    apply wp_bind_settles (P := fun _ w'' => S.Chased w'' ∧ S.Tried w''.now name)
    · apply wp_mono hexit
      intro r w'' hr
      cases r with
      | ret a =>
        obtain ⟨hs',hw⟩ := hr
        obtain rfl := hw rfl
        have hi : w'.now.Idles B.guarded { w'.now with failure := true } :=
          Core.idles_of_heap rfl rfl rfl rfl rfl rfl rfl
        exact ⟨hs'.1,hc'.step hs.books hi.advances rfl,htried'.mono hs.books.stays.next hi.advances⟩
      | raise e => exact hr.1
      | diverge => trivial
    · exact fun _ w'' hs hw => T.remove_settles hs hw.1 hw.2
  · refine wp_bind_ret (m := message _) rfl ?_
    exact T.remove_settles (h.emit id) (hc.step h.books (refl_of Core.Advances w.now) rfl) (htried hrun)
  · refine wp_bind_ret (m := message _) rfl ?_
    exact T.remove_settles (h.emit id) (hc.step h.books (refl_of Core.Advances w.now) rfl) (htried hrun)

/-- The status of a goal, and what it says. -/
theorem Trial.goalStatus_settles (hf : B.Free w) (h : S.Sober bad w) (hc : S.Chased w) (hname : name ∈ B.origin.wanted)
    {goal : ObjId} (hl : B.Leads w name goal) {r : Except Value Value} (hv : B.GoalVisited goal (.ret r) w')
    (hans : S.VisitSign w goal (.ret r) w') (hheed : S.Heeded bad w goal (.ret r) w') (hcomp : Composed w w') :
    wp (goalStatus goal r) (S.Settles bad fun s w'' => S.Chased w'' ∧ B.Knows w'' goal ∧
      (s = Status.error.toValue → B.Doomed bad w'') ∧ (s ≠ Status.running.toValue → S.Tried w''.now name)) w' := by
  obtain ⟨⟨hverdicts,_⟩,htext,hfails⟩ := hheed
  have hfailure : w'.now.failure = true → B.Doomed bad w' := fun hfail =>
    (h.failure (hcomp.failure.symm.trans hfail)).of_composed hcomp
  cases r with
  | ok v =>
    have ha := hans.1.along
    refine ⟨⟨hv.1,hans.1.facts,hverdicts,hfailure⟩,hc.step hf.1 ha.advances hcomp.goals,
      hans.2.mono ha.stays.next,fun he => .inl ⟨name,hname,(hfails he name hl).1⟩,fun hne => ?_⟩
    obtain ⟨t,rfl⟩ := hans.1.status v rfl
    cases t with
    | none => exact .inl ((hans.1.none rfl).done hl)
    | updated =>
      obtain ⟨⟨m,ht⟩,hs⟩ := hans.1.updated rfl
      have hreg : B.Target name goal := hl.resolve_right fun hlater => absurd ht.lt (not_lt.mpr hlater.2.1)
      exact .inl (.built hreg hs)
    | running => exact absurd rfl hne
    | error => exact (hfails rfl name hl).2
  | error e =>
    obtain ⟨s,rfl⟩ := htext e rfl
    have ha := hans.2
    obtain ⟨hfail,htried⟩ := hfails rfl name hl
    unfold goalStatus
    rw [wp_bind_setField]
    have hi : w'.now.Idles B.guarded (w'.now.rawset goal "errmsg" (.str s)) :=
      Core.idles_rawset_of_mem hv.2.1 (by decide)
    have hm : w'.now.Bare B.guarded (w'.now.rawset goal "errmsg" (.str s)) := Core.bare_rawset (.inr (by decide))
    have hfacts := hans.1.move T.rooted hv.1.toLedger hi hm.firm (S.sees hv.1.toLedger hans.1.inv hi.toStays hm.sees)
    have hd : B.Doomed bad { w' with now := w'.now.rawset goal "errmsg" (.str s) } := .inl ⟨name,hname,hfail⟩
    refine ⟨⟨hv.1.idles hi,hfacts,hverdicts.note hv.1.toLedger (.inr (.inl ⟨s,rfl⟩)),fun _ => hd⟩,?_,?_,fun _ => hd,
      fun _ => htried.mono hv.1.stays.next hi.advances⟩
    · exact (hc.step hf.1 ha.advances hcomp.goals).step hv.1 hi.advances rfl
    · exact (Leads.knows hl).mono (ha.stays.next.trans hi.next)

/-- One goal. -/
theorem Trial.goalStep_settles (hstack : B.origin.next < E.stack) (hf : B.Free w) (h : S.Sober bad w) (hc : S.Chased w)
    (hname : name ∈ B.origin.wanted) (k : ℕ) : wp (goalStep E name k) (S.Settles bad fun x w' => S.Chased w' ∧
      (x = .next (k+1) ∨ x = .stop (k+1))) w := by
  obtain ⟨goal,c,hrun,hl,hblank⟩ := T.lookup h.books (.inl hname)
  have hi := idles_targetIndex (K := B.guarded) name w.now
  have hmute := mute_quietly (mute_targetIndex name) w
  have hcalm := (calm_targetIndex name w.now).1
  have hlook : Moves (S.Bears []) (quietly (targetIndex name) : Engine Value) :=
    bears_quietly T.rooted (idles_targetIndex name) (bare_targetIndex name)
  have hbears := hlook w h.books (by simp) h.facts
  rw [quietly_ret hrun] at hmute hbears
  rw [hrun] at hi hcalm
  have h₁ : S.Sober bad { w with now := c } := h.move hbears.1.1 hbears.1.2 hi hmute hcalm.failure
  have hf₁ : B.Free { w with now := c } := ⟨h₁.books,hcalm.count.trans_lt hf.2⟩
  have hc₁ : S.Chased { w with now := c } := hc.step h.books hi.advances hcalm.goals
  have hk := Leads.knows hl
  have hcalled : Called B { w with now := c } goal := ⟨h₁.books,hk,hf₁.2⟩
  have hheight : height B.origin.Feeds (Finset.range B.origin.next) goal ≤ B.origin.next :=
    (height_le goal).trans_eq (Finset.card_range _)
  have hsummoned : S.Summoned bad E.stack goal { w with now := c } :=
    ⟨h₁.verdicts,⟨name,hl⟩,hblank,hheight.trans_lt hstack⟩
  have hbring : wp (bringUpToDate E E.stack goal) (fun r w' =>
      B.Books w' ∧ S.Convicts bad { w with now := c } goal r w') { w with now := c } := wp_mono (wp_and (bringUpToDate_answered E.stack hcalled)
        (T.bringUpToDate_convicts E.stack hcalled h₁.facts hsummoned)) fun _ _ hw => ⟨hw.1.books,hw.2⟩
  have hcomp : wp (visit E (bringUpToDate E E.stack) goal) (fun _ w' => Composed { w with now := c } w')
      { w with now := c } := (serves_visit E composed_of_calm (serves_bringUpToDate E composed_of_calm composed_jobsStart E.stack) goal _).1
  have hsign := visit_sign T.rooted (fun o w hc hf => bringUpToDate_sign T.rooted E.stack hc hf) hf₁.1 hf₁.2 h₁.facts
    (.inl hk)
  unfold goalStep
  apply wp_bind_ret (quietly_ret hrun)
  rw [wp_bind_asTable]
  apply wp_bind_of (wp_and (wp_and (wp_and (visit_goal hf₁ (.inl hk)) hsign) (T.visit_heeded h₁.books hk hbring)) hcomp)
  · intro r w₁ hw
    obtain ⟨⟨⟨hv,hans⟩,hheed⟩,hcomp⟩ := hw
    apply wp_bind_settles (T.goalStatus_settles hf₁ h₁ hc₁ hname hl hv hans hheed hcomp)
    intro s w₂ hs hw
    obtain ⟨hc₂,hk₂,hd,htried⟩ := hw
    apply wp_bind_settles (T.reportGoal_settles hs hc₂ hk₂ hd htried)
    intro _ w₃ hs₃ hc₃
    rw [wp_bind_core,wp_ite]
    split_ifs
    · exact ⟨hs₃,hc₃,.inr rfl⟩
    · exact ⟨hs₃,hc₃,.inl rfl⟩
  · exact fun _ _ hw => hw.1.2.elim
  · exact fun _ _ => trivial

/-- One pass of the main loop. -/
theorem Trial.goalPass_settles (hstack : B.origin.next < E.stack) (hf : B.Free w) (h : S.Sober bad w)
    (hc : S.Chased w) : wp (goalPass E) (S.Settles bad fun _ w' => S.Chased w') w := by
  have hi : w.now.Idles B.guarded { w.now with tick := w.now.tick+1 } := Core.idles_of_heap rfl rfl rfl rfl rfl rfl rfl
  have h₀ : S.Sober bad { w with now := { w.now with tick := w.now.tick+1 } } :=
    h.of_heap T.rooted rfl rfl hi rfl h.failure
  have hf₀ : B.Free { w with now := { w.now with tick := w.now.tick+1 } } := ⟨h₀.books,hf.2⟩
  have hc₀ : S.Chased { w with now := { w.now with tick := w.now.tick+1 } } := hc.step h.books hi.advances rfl
  unfold goalPass
  rw [wp_bind_core]
  refine wp_bind_ret (m := quietly (enumerate E w.now.goals)) rfl ?_
  have hloop : wp (forEach (goalStep E) (E.names.order w.now.tick w.now.goals) 0)
      (S.Settles bad fun _ w' => S.Chased w') { w with now := { w.now with tick := w.now.tick+1 } } := by
    apply wp_forEach fun l _ w' => (B.Free w' ∧ S.Sober bad w' ∧ S.Chased w') ∧ ∀ n ∈ l, n ∈ B.origin.wanted
    · intro n l k w' hw
      obtain ⟨⟨hf,hs,hc⟩,hl⟩ := hw
      apply wp_mono (wp_and (goalStep_ended n k hf) (T.goalStep_settles hstack hf hs hc (hl n List.mem_cons_self) k))
      intro r w'' hr
      obtain ⟨hend,hr⟩ := hr
      cases r with
      | ret x =>
        obtain ⟨hs,hc,rfl | rfl⟩ := hr
        · exact ⟨⟨hend,hs,hc⟩,fun m hm => hl m (List.mem_cons_of_mem _ hm)⟩
        · exact ⟨hs,hc⟩
      | raise e => exact hr
      | diverge => exact hr
    · exact fun k w' hw => hw.1.2
    · refine ⟨⟨hf₀,h₀,hc₀⟩,fun n hn => hc.goals ?_⟩
      exact (E.names.mem_order w.now.tick w.now.goals n).mp hn
  apply wp_bind_settles hloop
  intro x w' hs hc'
  cases x with
  | left e => cases e
  | fell k =>
    dsimp only
    refine wp_bind_settles (P := fun _ w'' => S.Chased w'') ?_ fun _ w'' hs hc => ⟨hs,hc⟩
    unfold dispatchRunning
    rw [wp_bind_core,wp_ite]
    split_ifs
    · have hminds := ((minds_dispatch_drain_exit (S := S) T.rooted E.fuel).1 w' hs.books hs.facts).2
      have hgoals := ((keen_dispatch_drain_exit (E := E) E.fuel).1 w').goals
      apply wp_mono (wp_and ((T.dispatch_drain_exit_settle E.fuel).1 w' hs)
        (show wp (dispatch E E.fuel) (fun _ w'' => S.Chased w'') w' from hc'.step hs.books hminds.advances hgoals))
      intro r w'' hr
      cases r with
      | ret a => exact ⟨hr.1.1,hr.2⟩
      | raise e => exact hr.1
      | diverge => trivial
    · exact ⟨hs,hc'⟩

/-- The main loop tries every goal, with `-k` whatever happens. -/
theorem Trial.updateGoalsP_settles (hstack : B.origin.next < E.stack) (hf : B.Free w) (h : S.Sober bad w)
    (hgoals : w.now.wanted = B.origin.wanted) (hne : w.now.HasGoals) :
    wp (updateGoalsP E) (fun r w' => r ≠ .diverge → (S.Facts w' ∧ S.Verdicts bad w') ∧ (r ≠ .ret () → B.Doomed bad w') ∧
      (E.flags.keepGoing = true → ∀ g ∈ B.origin.wanted, S.Tried w'.now g)) w := by
  have hi : w.now.Idles B.guarded { w.now with goals := B.origin.wanted } :=
    Core.idles_of_heap rfl rfl rfl rfl rfl rfl rfl
  have h₁ : S.Sober bad { w with now := { w.now with goals := B.origin.wanted } } :=
    h.of_heap T.rooted rfl rfl hi rfl h.failure
  have hdefault : defaultGoals w = (.ret (),{ w with now := { w.now with goals := B.origin.wanted } }) := by
    rw [← hgoals]
    exact run_defaultGoals hne
  unfold updateGoalsP
  apply wp_bind_ret hdefault
  have hloop : wp (repeatWhile (goalPass E) E.fuel) (S.Settles bad fun _ w' => S.Chased w' ∧ w'.now.goals = ∅)
      { w with now := { w.now with goals := B.origin.wanted } } := by
    apply wp_repeatWhile fun w' => (B.Free w' ∧ S.Sober bad w') ∧ S.Chased w'
    · intro w' hw
      obtain ⟨⟨hf,hs⟩,hc⟩ := hw
      have hpursued : S.Pursued ∅ w' := ⟨hs.facts,by simp⟩
      apply wp_mono (wp_and (wp_and (goalPass_back hf) (goalPass_pursued T.rooted hf hpursued))
        (T.goalPass_settles hstack hf hs hc))
      intro r w'' hr
      obtain ⟨⟨hback,hempty⟩,hr⟩ := hr
      cases r with
      | ret b =>
        cases b with
        | false => exact ⟨hr.1,hr.2,hempty.2.2 rfl⟩
        | true => exact ⟨⟨⟨hback.1,hback.2 ⟨_,rfl⟩⟩,hr.1⟩,hr.2⟩
      | raise e => exact hr
      | diverge => exact hr
    · exact fun _ _ => trivial
    · exact ⟨⟨⟨h₁.books,hf.2⟩,h₁⟩,subset_rfl,fun g hg => .inl hg⟩
  apply wp_bind_of hloop
  · intro _ w' hw
    obtain ⟨hs,hc,hnone⟩ := hw
    have htried : ∀ g ∈ B.origin.wanted, S.Tried w'.now g := by
      intro g hg
      refine (hc.tried g hg).resolve_left fun hmem => ?_
      rw [hnone] at hmem
      cases hmem
    rw [wp_bind_core,wp_ite]
    split_ifs with hfail
    · refine wp_bind_ret (m := message _) rfl fun _ => ?_
      have hs' := hs.emit (e := .printed (.str "One or more targets not remade due to errors.")) id
      exact ⟨⟨hs'.facts,hs'.verdicts⟩,fun _ => hs'.failure hfail,fun _ => htried⟩
    · exact fun _ => ⟨⟨hs.facts,hs.verdicts⟩,fun hno => absurd rfl hno,fun _ => htried⟩
  · intro e w' hw _
    exact ⟨⟨hw.1.1.facts,hw.1.1.verdicts⟩,fun _ => hw.1.2,fun hk => absurd (hk.symm.trans hw.2) (by simp)⟩
  · exact fun _ _ hno => absurd rfl hno

/-- How a run ends whose result is settled. -/
theorem Trial.updateGoals_settles (hstack : B.origin.next < E.stack) (hne : B.origin.HasGoals)
    (hfail : B.origin.failure = false) (hmessage : B.origin.Lacks "errmsg") (hlist : B.origin.Lacks "deps_newer") :
    wp (updateGoals E) (fun r w => r ≠ .diverge → (S.Facts w ∧ S.Verdicts bad w) ∧ (r ≠ .ret () → B.Doomed bad w) ∧
      (E.flags.keepGoing = true → ∀ g ∈ B.origin.wanted, S.Tried w.now g)) ⟨B.origin,[]⟩ := by
  have hf := free_origin B
  have hv : S.Verdicts bad ⟨B.origin,[]⟩ := by
    have hstatus : ∀ {o}, B.origin.rawget o "status" ≠ Status.error.toValue := by
      intro o
      rw [B.ready.unbuilt o]
      simp [Status.toValue]
    have hdep : ∀ {o}, B.origin.rawget o "dep_status" ≠ Status.error.toValue := by
      intro o
      rw [T.rooted.unfailed o]
      simp [Status.toValue]
    refine ⟨fun _ _ _ he => absurd he hstatus,fun _ _ _ he => absurd he hdep,fun _ _ _ _ he => absurd he hstatus,
      fun _ _ _ _ _ hk hno => absurd hk hno,fun o _ => .inl (hmessage o),fun o hk => ?_,fun o _ => .inl (hlist o)⟩
    obtain ⟨m,ht⟩ | ⟨hle,hlt⟩ := hk
    · exact B.ready.sound.deps o ht.2
    · exact absurd hlt (not_lt.mpr hle)
  have h : S.Sober bad ⟨B.origin,[]⟩ :=
    ⟨hf.1,facts_origin S T.rooted,hv,fun ht => absurd (hfail.symm.trans ht) (by simp)⟩
  have hi : B.origin.Idles B.guarded { B.origin with deleteOnError := ∅ } :=
    Core.idles_of_heap rfl rfl rfl rfl rfl rfl rfl
  have h' : S.Sober bad ⟨{ B.origin with deleteOnError := ∅ },[]⟩ := h.of_heap T.rooted rfl rfl hi rfl h.failure
  unfold updateGoals
  rw [wp_bind_modify_quietly]
  have hatt : wp (Prog.attempt (updateGoalsP E)) (fun r w => r ≠ .diverge → (S.Facts w ∧ S.Verdicts bad w) ∧
      (r ≠ .ret (.ok ()) → B.Doomed bad w) ∧ (E.flags.keepGoing = true → ∀ g ∈ B.origin.wanted, S.Tried w.now g))
      ⟨{ B.origin with deleteOnError := ∅ },[]⟩ := by
    rw [wp_attempt]
    apply wp_mono (T.updateGoalsP_settles hstack ⟨h'.books,hf.2⟩ h' rfl hne)
    intro r w hw
    cases r with
    | ret a => exact fun _ => ⟨(hw (by simp)).1,fun hno => absurd rfl hno,(hw (by simp)).2.2⟩
    | raise e => exact fun _ => ⟨(hw (by simp)).1,fun _ => (hw (by simp)).2.1 (by simp),(hw (by simp)).2.2⟩
    | diverge => exact fun hno => absurd rfl hno
  apply wp_bind_of hatt
  · intro r w hw
    obtain ⟨hv,hd,ht⟩ := hw (by simp)
    cases r with
    | ok a => exact fun _ => ⟨hv,fun hno => absurd rfl hno,ht⟩
    | error e =>
      have hlast : (S.Facts w ∧ S.Verdicts bad w) ∧ B.Doomed bad w ∧
          (E.flags.keepGoing = true → ∀ g ∈ B.origin.wanted, S.Tried w.now g) := ⟨hv,hd (by simp),ht⟩
      rw [wp_bind_core,wp_ite]
      split_ifs
      · exact fun _ => ⟨hlast.1,fun _ => hlast.2.1,hlast.2.2⟩
      · split
        · rw [wp_ite]
          split_ifs <;> exact fun _ => ⟨hlast.1,fun _ => hlast.2.1,hlast.2.2⟩
        · exact fun _ => ⟨hlast.1,fun _ => hlast.2.1,hlast.2.2⟩
        · exact fun _ => ⟨hlast.1,fun _ => hlast.2.1,hlast.2.2⟩
  · intro e w hw
    exact fun _ => ⟨(hw (by simp)).1,fun _ => (hw (by simp)).2.1 (by simp),(hw (by simp)).2.2⟩
  · exact fun _ _ hno => absurd rfl hno

end

end Signs
end Build
end Presto
