import Presto.Engine.JobSteps

/-! Bringing a target up to date keeps the books: whatever its dependencies do, the target is
not started with full slots, and it has no status of its own until its command is run. -/
namespace Presto
open Program Traced

namespace Build
variable {E : Env} (B : Build E)

/-- The dependencies lead from `o` to `q`. -/
def Reaches (o q : ObjId) : Prop := Relation.ReflTransGen B.origin.Feeds o q

/-- What bringing `o` up to date from `w₀` on does to the books. -/
structure Brought (w₀ : World) (o : ObjId) (w : World) : Prop where
  books : B.Books w
  next : w₀.now.next ≤ w.now.next
  status : ∀ q < w₀.now.next, ¬B.Reaches o q →
    w.now.rawget q "status" = w₀.now.rawget q "status"
  count : w₀.now.count ≤ w.now.count

/-- Every target is brought up to date by the method of `__target`. -/
def Method : Prop := "name" ∈ B.guarded ∧ "bring_up_to_date" ∈ B.guarded ∧
  ∀ m o, B.origin.registry m = .obj o → ∀ p ∈ o::(B.origin.heap o).chain,
    B.origin.rawget p "bring_up_to_date" = .nil

/-- Bringing `o` up to date goes on: there is a free slot, and nothing is decided. -/
structure Opened (w₀ : World) (o : ObjId) (ks : List ObjId) (w : World) : Prop
    extends B.Brought w₀ o w where
  room : w.now.count < E.slots
  unsettled : w.now.rawget o "status" = .nil
  knows : ∀ p ∈ ks, B.Knows w p

/-- How a call of `bring_up_to_date` ends: with a free slot unless it answers `running`, and
some job runs if it does. -/
structure Answered (w₀ : World) (o : ObjId) (r : Outcome Value Value) (w : World) : Prop
    extends B.Brought w₀ o w where
  room : w.now.count < E.slots ∨ r = .ret Status.running.toValue
  waits : B.Method → r = .ret Status.running.toValue → 0 < w.now.count

/-- `dep` is a registered dependency of `self`, or it has been made by a lookup since `w₀`. -/
def Depends (w₀ : World) (self dep : ObjId) : Prop := B.origin.Feeds self dep ∨ w₀.now.next ≤ dep

variable {B} {w₀ w w' : World} {self dep : ObjId} {ks : List ObjId} {α : Type}

theorem Brought.refl (h : B.Books w) (self : ObjId) : B.Brought w self w :=
  ⟨h,le_rfl,fun _ _ _ => rfl,le_rfl⟩

theorem Brought.idles (h : B.Brought w₀ self w) (hb : B.Books w')
    (hi : w.now.Idles B.guarded w'.now) : B.Brought w₀ self w' where
  books := hb
  next := h.next.trans hi.next
  status q hq hr := (hi.status q (hq.trans_le h.next)).trans (h.status q hq hr)
  count := h.count.trans hi.count.ge

theorem Opened.lt_next (h : B.Opened w₀ self ks w) (hself : self ∈ ks) : self < w.now.next :=
  (h.knows self hself).lt_next h.books

theorem Opened.idles (h : B.Opened w₀ self ks w) (hself : self ∈ ks) (hb : B.Books w')
    (hi : w.now.Idles B.guarded w'.now) : B.Opened w₀ self ks w' where
  toBrought := h.toBrought.idles hb hi
  room := by rw [hi.count]; exact h.room
  unsettled := (hi.status self (h.lt_next hself)).trans h.unsettled
  knows o ho := (h.knows o ho).mono hi.next

theorem Opened.answered (h : B.Opened w₀ self ks w) {r : Outcome Value Value}
    (hr : r ≠ .ret Status.running.toValue) : B.Answered w₀ self r w :=
  ⟨h.toBrought,.inl h.room,fun _ he => absurd he hr⟩

/-- A status `running` that is read belongs to some job. -/
theorem count_pos_of_running (h : B.Books w) (hm : B.Method) (ho : self < w.now.next)
    (hs : w.now.attr self "status" = Status.running.toValue) : 0 < w.now.count := by
  obtain ⟨p,hp,hraw⟩ : ∃ p < w.now.next, w.now.rawget p "status" = Status.running.toValue := by
    cases hh : w.now.holder self "status" with
    | none =>
      exfalso
      simp only [Core.attr,hh,h.registry] at hs
      rcases B.ready.sound.bound "status" rfl with hn | ⟨q,hq,_⟩
      · rw [hn] at hs
        split_ifs at hs
        all_goals cases hs
      · rw [hq] at hs
        split_ifs at hs
        all_goals cases hs
    | some p =>
      simp only [Core.attr,hh] at hs
      exact ⟨p,h.linked.lt_next ho (List.mem_of_find?_eq_some hh),hs⟩
  obtain ⟨i,j,hl,_⟩ := h.accounts.listed hm.1 p hp hraw
  rw [h.accounts.count]
  exact_mod_cast Finset.card_pos.mpr ⟨i,Finmap.mem_keys.mpr (Finmap.mem_of_lookup_eq_some hl)⟩

/-- What rests does not close the case. -/
theorem keeps_opened {m : Engine α} (hm : Moves (B.Rests ks) m) (hself : self ∈ ks) :
    Keeps (B.Opened w₀ self ks) m := fun w h =>
  have hr := hm w h.books h.knows
  h.idles hself hr.1 hr.2

/-- The lookup of a dependency. -/
theorem targetIndex_known (h : B.Books w) (key : String) {c : Core} {o : ObjId}
    (hr : targetIndex key w.now = (.ret (.obj o),c)) :
    (B.origin.registry key = .obj o ∧ c = w.now) ∨
      (o = w.now.next ∧ c.next = w.now.next+1 ∧ w.now.Idles B.guarded c) := by
  rcases targetIndex_cases key w.now with ⟨_,hd,he⟩ | ⟨_,_,_,he⟩ | ⟨_,_,hne,he⟩ | ⟨_,_,hnil,he⟩
  all_goals rw [he] at hr
  · obtain ⟨hv,_⟩ := Prod.mk.inj hr
    have hp := B.ready.proxy o
    rw [← h.stays.defined] at hp
    exact absurd (Outcome.ret.inj hv) hp
  · cases hr
  · obtain ⟨hv,rfl⟩ := Prod.mk.inj hr
    rw [← h.registry]
    exact .inl ⟨Outcome.ret.inj hv,rfl⟩
  · obtain ⟨hv,rfl⟩ := Prod.mk.inj hr
    cases hv
    exact .inr ⟨rfl,rfl,Core.idles_alloc _ _⟩

/-- A table that is found under a name is a target, or it is `__target.mt`. -/
theorem knows_or_mt {key : String} {o : ObjId} (ho : B.origin.registry key = .obj o) (w : World) :
    B.Knows w o ∨ o = mtTable := by
  by_cases hm : protectedMember key = .nil
  · rcases B.ready.sound.bound key hm with hn | ⟨p,hp,ht⟩
    · rw [hn] at ho
      cases ho
    · rw [hp] at ho
      cases ho
      exact .inl (.inl ⟨key,hp,ht⟩)
  · rw [B.ready.sound.member key hm] at ho
    exact .inr (Core.protectedMember_table ho)

/-- A dependency leads to nothing but what the target leads to, and not back to it. -/
theorem Depends.reaches (h : B.Depends w₀ self dep) (hb : B.Books w₀) {q : ObjId}
    (hq : q < w₀.now.next) (hr : B.Reaches dep q) : Relation.TransGen B.origin.Feeds self q := by
  rcases h with hf | hnew
  · exact Relation.TransGen.head' hf hr
  · exfalso
    have hno : ∀ p, ¬B.origin.Feeds dep p := by
      rintro p ⟨m,hm,_⟩
      have hdeps : B.origin.deps dep = ∅ := by
        simp [Core.deps,Core.rawget,B.ready.sound.fresh dep (hb.stays.next.trans hnew),noFields]
      rw [hdeps] at hm
      cases hm
    rcases Relation.ReflTransGen.cases_head hr with rfl | ⟨p,hp,_⟩
    · exact absurd hq (not_lt.mpr hnew)
    · exact hno p hp

/-- What a dependency has done is part of what the target does, and leaves it undecided. -/
theorem Brought.through (h : B.Brought w₀ self w) (hb : B.Books w₀) (hself : self < w₀.now.next)
    (hd : B.Depends w₀ self dep) (h' : B.Brought w dep w') :
    B.Brought w₀ self w' ∧ w'.now.rawget self "status" = w.now.rawget self "status" := by
  refine ⟨⟨h'.books,h.next.trans h'.next,fun q hq hr => ?_,h.count.trans h'.count⟩,?_⟩
  · rw [h'.status q (hq.trans_le h.next) fun hq' => hr (hd.reaches hb hq hq').to_reflTransGen]
    exact h.status q hq hr
  · exact h'.status self (hself.trans_le h.next) fun hr => B.ready.acyclic self (hd.reaches hb hself hr)

/-- What a call of `bring_up_to_date` may rely on. -/
structure Called (B : Build E) (w : World) (o : ObjId) : Prop where
  books : B.Books w
  knows : B.Knows w o
  room : w.now.count < E.slots

/-- A dependency has been visited. -/
structure Visited (B : Build E) (w₀ : World) (o dep : ObjId) (r : Except Value Value) (w : World) : Prop
    extends B.Brought w₀ o w where
  room : w.now.count < E.slots ∨ r = .ok Status.running.toValue
  unsettled : w.now.rawget o "status" = .nil
  knows : B.Knows w o
  known : B.Knows w dep ∨ ∃ e, r = .error e
  waits : B.Method → r = .ok Status.running.toValue → 0 < w.now.count

theorem Visited.opened {r : Except Value Value} (h : B.Visited w₀ self dep r w)
    (hr : w.now.count < E.slots) : B.Opened w₀ self [self] w := by
  refine ⟨h.toBrought,hr,h.unsettled,fun p hp => ?_⟩
  rw [List.mem_singleton.mp hp]
  exact h.knows

/-- `__target.mt` has no method, so it fails as a dependency. -/
theorem callBring_mt (bring : ObjId → Engine Value) (hb : B.Books w) :
    wp (callBring E bring mtTable) (fun r w' => (∃ e, r = .raise e) ∧ w' = w) w := by
  have hlt : mtTable < B.origin.next := Nat.lt_of_lt_of_le (by decide) B.ready.sound.classes
  have hmt : B.origin.heap mtTable = ⟨[],false,noFields⟩ := B.ready.sound.mt
  have hchain : (w.now.heap mtTable).chain = [] := by rw [hb.stays.chain _ hlt,hmt]
  have htarget : (w.now.heap mtTable).isTarget = false := by rw [hb.stays.isTarget _ hlt,hmt]
  have hraw : w.now.rawget mtTable "bring_up_to_date" = .nil ∨
      w.now.rawget mtTable "bring_up_to_date" = .bool true := by
    rcases hb.stays.kept mtTable hlt "bring_up_to_date" (by decide) with he | ⟨_,he⟩
    · left
      rw [he,Core.rawget,hmt]
      rfl
    · exact .inr he
  unfold callBring
  rw [wp_bind_core]
  rcases hraw with hn | ht
  · have hattr : w.now.attr mtTable "bring_up_to_date" = .nil := by
      simp [Core.attr,Core.holder,hchain,hn,htarget]
    rw [hattr]
    exact ⟨⟨_,rfl⟩,rfl⟩
  · rw [Core.attr_eq_rawget (by simp [ht]),ht]
    exact ⟨⟨_,rfl⟩,rfl⟩

/-- The method of `__target` is the one that is found. -/
theorem method_of_knows (hb : B.Ledger w) (hk : B.Knows w dep) (hm : B.Method) :
    w.now.attr dep "bring_up_to_date" = .fn (.method .bringUpToDate) := by
  have hreg : w.now.registry "bring_up_to_date" = .fn (.method .bringUpToDate) := by
    rw [hb.registry]
    exact B.ready.sound.member "bring_up_to_date" (by decide)
  obtain ⟨ht,⟨m,hreg',_,hchain⟩ | hblank⟩ := hk.tables hb
  · have ho := B.ready.sound.registered hreg'
    have hnone : w.now.holder dep "bring_up_to_date" = none := by
      apply List.find?_eq_none.mpr
      intro p hp
      rw [hchain] at hp
      have hlt := B.ready.sound.linked.lt_next ho hp
      have hkept := (hb.stays.kept p hlt "bring_up_to_date" (by decide)).resolve_right
        fun hk => hk.1 hm.2.1
      rw [hkept,hm.2.2 m dep hreg' p hp]
      simp
    simp [Core.attr,hnone,ht,hreg]
  · rcases Blank.attr hblank (k := "bring_up_to_date") (by decide) (by decide) with hr | ⟨hK,_⟩
    · rw [hr,hreg]
    · exact absurd hm.2.1 hK

/-- One call through the method of the target. -/
theorem callBring_answered {bring : ObjId → Engine Value}
    (hbring : ∀ o w, Called B w o → wp (bring o) (B.Answered w o) w) (h : Called B w dep) :
    wp (callBring E bring dep) (B.Answered w dep) w := by
  have hstay : (B.Method → w.now.attr dep "bring_up_to_date" = .fn (.method .bringUpToDate) → False) →
      ∀ r, B.Answered w dep r w := fun hno r =>
    ⟨.refl h.books dep,.inl h.room,fun hm _ => (hno hm (method_of_knows h.books.toLedger h.knows hm)).elim⟩
  unfold callBring
  rw [wp_bind_core]
  split
  · next f hf =>
    rw [wp_ite]
    split_ifs with hm
    · exact hbring dep w h
    · exact hstay (fun _ he => hm (Value.fn.inj (hf.symm.trans he))) _
  · next hv => exact hstay (fun _ he => hv _ he) _

/-- While a target has to wait, some job runs. -/
def Waiting (B : Build E) (b : Pass) (w : World) : Prop := B.Method → b.mustWait = true → 0 < w.now.count

/-- How a protected call for a dependency ends. -/
def VisitAnswered (B : Build E) (w₀ : World) (self dep : ObjId) (b : Pass) :
    Outcome Value (Except Value Value) → World → Prop
  | .ret r,w => B.Visited w₀ self dep r w ∧ B.Waiting b w
  | .raise e,w => B.Answered w₀ self (.raise e) w
  | .diverge,w => B.Answered w₀ self .diverge w

theorem visit_answered {bring : ObjId → Engine Value}
    (hbring : ∀ o w, Called B w o → wp (bring o) (B.Answered w o) w) (hb : B.Books w₀)
    (hself : self < w₀.now.next) (h : B.Opened w₀ self [self] w)
    {b : Pass} (hwait : B.Waiting b w) (hdep : B.Depends w₀ self dep ∧ B.Knows w dep ∨ dep = mtTable) :
    wp (visit E bring dep) (B.VisitAnswered w₀ self dep b) w := by
  have hk := h.knows self List.mem_cons_self
  rcases hdep with ⟨hd,hkd⟩ | rfl
  · have hpost : ∀ (r : Except Value Value) w', B.Brought w dep w' →
        (w'.now.count < E.slots ∨ r = .ok Status.running.toValue) →
        (B.Method → r = .ok Status.running.toValue → 0 < w'.now.count) →
        B.Visited w₀ self dep r w' ∧ B.Waiting b w' := by
      intro r w' hbr hroom hwaits
      obtain ⟨hall,hs⟩ := h.toBrought.through hb hself hd hbr
      exact ⟨⟨hall,hroom,hs.trans h.unsettled,hk.mono hbr.next,.inl (hkd.mono hbr.next),hwaits⟩,
        fun hm hw => (hwait hm hw).trans_le hbr.count⟩
    have hemit : ∀ e w', B.Visited w₀ self dep (.error e) w' ∧ B.Waiting b w' →
        B.Visited w₀ self dep (.error e) { w' with trace := (.failed dep,w'.now)::w'.trace } ∧
          B.Waiting b w' := fun e w' ⟨hv,hw⟩ =>
        ⟨⟨⟨hv.books.emit id,hv.next,hv.status,hv.count⟩,hv.room,hv.unsettled,hv.knows,hv.known,hv.waits⟩,hw⟩
    apply wp_visit E (callBring_answered hbring ⟨h.books,hkd,h.room⟩)
    · rintro v w' ⟨hbr,hroom,hwaits⟩
      exact hpost (.ok v) w' hbr (hroom.imp_right fun hr => by rw [Outcome.ret.inj hr])
        fun hm hr => hwaits hm (by rw [Except.ok.inj hr])
    · rintro e w' ⟨hbr,hroom,_⟩
      exact hemit e w' (hpost (.error e) w' hbr (.inl (hroom.resolve_right (by simp)))
        fun _ hr => by cases hr)
    · rintro w' ⟨hbr,hroom,_⟩
      exact ⟨(h.toBrought.through hb hself hd hbr).1,.inl (hroom.resolve_right (by simp)),
        fun _ hr => by cases hr⟩
  · apply wp_visit E (callBring_mt bring h.books)
    · rintro v w' ⟨⟨e,he⟩,_⟩
      cases he
    · rintro e w' ⟨_,rfl⟩
      exact ⟨⟨⟨h.books.emit id,h.next,h.status,h.count⟩,.inl h.room,h.unsettled,hk,.inr ⟨e,rfl⟩,
        fun _ hr => by cases hr⟩,hwait⟩
    · rintro w' ⟨⟨e,he⟩,_⟩
      cases he

/-- How one dependency is dealt with. -/
def StepAnswered (B : Build E) (w₀ : World) (self : ObjId) :
    Outcome Value (Step Pass Value) → World → Prop
  | .ret (.next b),w => B.Opened w₀ self [self] w ∧ B.Waiting b w
  | .ret (.stop b),w => B.Brought w₀ self w ∧ b.mustWait = true ∧ B.Waiting b w
  | .ret (.leave v),w => B.Answered w₀ self (.ret v) w
  | .raise e,w => B.Answered w₀ self (.raise e) w
  | .diverge,w => B.Answered w₀ self .diverge w

theorem Opened.ended (h : B.Opened w₀ self ks w) {o : Outcome Value (Step Pass Value)}
    (ho : ∀ x, o ≠ .ret x) : B.StepAnswered w₀ self o w := by
  cases o with
  | ret x => exact absurd rfl (ho x)
  | raise e => exact h.answered (by simp)
  | diverge => exact h.answered (by simp)

theorem Opened.mono {ks' : List ObjId} (h : B.Opened w₀ self ks w) (hks : ∀ o ∈ ks', o ∈ ks) :
    B.Opened w₀ self ks' w := ⟨h.toBrought,h.room,h.unsettled,fun o ho => h.knows o (hks o ho)⟩

theorem marks_error (w : World) (o : ObjId) : Marks w o .error
    { w with
      now := w.now.rawset o "status" Status.error.toValue
      trace := (.marked o,w.now.rawset o "status" Status.error.toValue)::w.trace } :=
  ⟨le_rfl,by simp,fun q _ hne => by simp [hne]⟩

/-- A target that has no status fails. -/
theorem Opened.markError (h : B.Opened w₀ self [self] w) (hself : self < w₀.now.next) :
    B.Brought w₀ self { w with
      now := w.now.rawset self "status" Status.error.toValue
      trace := (.marked self,w.now.rawset self "status" Status.error.toValue)::w.trace } := by
  have hlt := h.lt_next List.mem_cons_self
  have hm := marks_error w self
  have hadv : w.now.Advances (w.now.rawset self "status" Status.error.toValue) :=
    advances_mark (s := .error) (by simp) h.unsettled le_rfl hm.status hm.others
  have hl := h.books.toLedger.move (Core.stays_status hlt _)
    (h.books.accounts.settle h.unsettled (.inr rfl)) hadv le_rfl
  refine ⟨(h.books.move hl (fun q hq => ?_) h.books.jobs).emit id,h.next,fun q hq hr => ?_,h.count⟩
  · rw [Core.rawget_rawset]
    split_ifs
    · exact toValue_ne_nil .error
    · exact hq
  · refine (hm.others q (hq.trans_le h.next) ?_).trans (h.status q hq hr)
    rintro rfl
    exact hr .refl

/-- What rests changes neither the state of the target nor what it waits for. -/
theorem keeps_waiting {m : Engine α} (hm : Moves (B.Rests ks) m) (hself : self ∈ ks) (b : Pass) :
    Keeps (fun w => B.Opened w₀ self ks w ∧ B.Waiting b w) m := by
  rintro w ⟨h,hw⟩
  obtain ⟨hb,hi⟩ := hm w h.books h.knows
  exact ⟨h.idles hself hb hi,fun hM hmw => by rw [hi.count]; exact hw hM hmw⟩

/-- A failed dependency ends the target or is taken off its list. -/
theorem failDep_answered {b : Pass} (h : B.Opened w₀ self [self] w ∧ B.Waiting b w)
    (hself : self < w₀.now.next) (name : String) :
    wp (failDep E self dep name b) (B.StepAnswered w₀ self) w := by
  have hend : ∀ (o : Outcome Value (Step Pass Value)) w, (∀ x, o ≠ .ret x) →
      (B.Opened w₀ self [self] w ∧ B.Waiting b w) → B.StepAnswered w₀ self o w :=
    fun o w ho hw => hw.1.ended ho
  have hmem : self ∈ [self] := List.mem_cons_self
  unfold failDep
  rw [wp_bind_core]
  apply (keeps_waiting (rests_concatText _) hmem b).wp_bind h _ hend
  intro depName w h
  apply (keeps_waiting (rests_message _) hmem b).wp_bind h _ hend
  intro _ w h
  apply (keeps_waiting (rests_messageIf _) hmem b).wp_bind h _ hend
  intro _ w h
  rw [wp_ite]
  split_ifs
  · apply (keeps_waiting (rests_prune hmem name) hmem b).wp_bind h _ hend
    intro _ w h
    apply (keeps_waiting (rests_setField hmem (by decide)) hmem b).wp_bind h _ hend
    exact fun _ w h => h
  · refine ⟨h.1.markError hself,.inl h.1.room,fun _ hr => ?_⟩
    have hv : (w.now.rawset self "status" Status.error.toValue).attr self "status" =
        Status.error.toValue := attr_status_rawset w.now self .error
    cases hv.symm.trans (Outcome.ret.inj hr)

theorem compareDep_answered {b : Pass} (h : B.Opened w₀ self [self,dep] w ∧ B.Waiting b w)
    {name : String} (hname : name ∈ B.origin.deps self) :
    wp (compareDep E self dep name b) (B.StepAnswered w₀ self) w := by
  have hend : ∀ (o : Outcome Value (Step Pass Value)) w, (∀ x, o ≠ .ret x) →
      (B.Opened w₀ self [self,dep] w ∧ B.Waiting b w) → B.StepAnswered w₀ self o w :=
    fun o w ho hw => hw.1.ended ho
  have hmem : self ∈ [self,dep] := List.mem_cons_self
  have hdone : ∀ w, B.Opened w₀ self [self,dep] w ∧ B.Waiting b w →
      B.Opened w₀ self [self] w ∧ B.Waiting b w := fun w hw =>
    ⟨hw.1.mono fun o ho => by rw [List.mem_singleton.mp ho]; exact hmem,hw.2⟩
  unfold compareDep
  apply (keeps_waiting (rests_readCached hmem (by decide) _) hmem b).wp_bind h _ hend
  intro s w h
  apply (keeps_waiting (rests_readCached (List.mem_cons_of_mem _ List.mem_cons_self) (by decide) _)
    hmem b).wp_bind h _ hend
  intro t w h
  apply (keeps_waiting (rests_lessThan s t) hmem b).wp_bind h _ hend
  intro older w h
  cases older
  · exact hdone w h
  · exact (keeps_waiting (rests_markNewer hmem hname) hmem b).wp_bind h (fun _ w h => hdone w h) hend

theorem depStatus_ok {r : Except Value Value} {s : Status} (hs : s ≠ .error) (h : depStatus r = s.toValue) :
    r = .ok s.toValue := by
  cases r with
  | ok v => exact congrArg Except.ok h
  | error e => cases s <;> first | exact absurd rfl hs | cases h

theorem useDep_answered {r : Except Value Value} (h : B.Visited w₀ self dep r w)
    (hself : self < w₀.now.next) {name : String} (hname : name ∈ B.origin.deps self) {b : Pass}
    (hb : B.Waiting b w) : wp (useDep E self dep name b (depStatus r)) (B.StepAnswered w₀ self) w := by
  have hend : ∀ (o : Outcome Value (Step Pass Value)) w, (∀ x, o ≠ .ret x) →
      (B.Opened w₀ self [self] w ∧ B.Waiting b w) → B.StepAnswered w₀ self o w :=
    fun o w ho hw => hw.1.ended ho
  have hmem : self ∈ [self] := List.mem_cons_self
  have hopen : depStatus r ≠ Status.running.toValue → B.Opened w₀ self [self] w ∧ B.Waiting b w :=
    fun hne => ⟨h.opened (h.room.resolve_right fun he => hne (by rw [he]; rfl)),hb⟩
  unfold useDep
  rw [wp_ite,wp_ite,wp_ite,wp_ite]
  split_ifs with hu hn he hr
  · exact (keeps_waiting (rests_markNewer hmem hname) hmem b).wp_bind (hopen (by rw [hu]; decide))
      (fun _ w h => h) hend
  · have ho := (hopen (by rw [hn]; decide)).1
    have hk : B.Knows w dep := h.known.resolve_right fun ⟨e,hr⟩ => by rw [hr] at hn; cases hn
    refine compareDep_answered ⟨⟨ho.toBrought,ho.room,ho.unsettled,fun o hm => ?_⟩,hb⟩ hname
    rcases List.mem_pair.mp hm with rfl | rfl
    · exact h.knows
    · exact hk
  · exact failDep_answered (hopen (by rw [he]; decide)) hself name
  · have hwait : B.Method → 0 < w.now.count := fun hm => h.waits hm (depStatus_ok (s := .running) (by simp) hr)
    rw [wp_bind_core,wp_ite]
    split_ifs with hc
    · exact ⟨h.toBrought,rfl,fun hm _ => hwait hm⟩
    · exact ⟨h.opened (not_le.mp hc),fun hm _ => hwait hm⟩
  · exact (keeps_waiting (rests_concatText _) hmem b).wp_bind (hopen hr)
      (fun _ w h => h.1.answered (by simp)) hend

/-- A dependency that is looked up is registered, or has just been made, or it is `__target.mt`. -/
theorem Opened.depends (h : B.Opened w₀ self ks w) {name : String} (hname : name ∈ B.origin.deps self) {c : Core}
    (hrun : targetIndex name w.now = (.ret (.obj dep),c)) :
    B.Depends w₀ self dep ∧ B.Knows { w with now := c } dep ∨ dep = mtTable := by
  rcases targetIndex_known h.books name hrun with ⟨hreg,_⟩ | ⟨rfl,hnext,_⟩
  · exact (knows_or_mt hreg _).imp_left fun hk => ⟨.inl ⟨name,hname,hreg⟩,hk⟩
  · refine .inl ⟨.inr h.next,.inr ⟨h.books.stays.next,?_⟩⟩
    exact Nat.lt_of_lt_of_eq (Nat.lt_succ_self _) hnext.symm

theorem depStep_answered {bring : ObjId → Engine Value}
    (hbring : ∀ o w, Called B w o → wp (bring o) (B.Answered w o) w) (hb : B.Books w₀)
    (hself : self < w₀.now.next) {b : Pass} (h : B.Opened w₀ self [self] w ∧ B.Waiting b w)
    {name : String} (hname : name ∈ B.origin.deps self) :
    wp (depStep E bring self name b) (B.StepAnswered w₀ self) w := by
  have hlook : Moves (B.Rests [self]) (quietly (targetIndex name) : Engine Value) :=
    rests_quietly (idles_targetIndex name)
  have hopen := keeps_waiting hlook List.mem_cons_self b w h
  apply wp_lookup
  · intro dep c hrun
    rw [quietly_ret hrun] at hopen
    apply wp_bind_of (visit_answered hbring hb hself hopen.1 hopen.2 (h.1.depends hname hrun))
    · exact fun r w hv => useDep_answered hv.1 hself hname hv.2
    · exact fun _ _ ha => ha
    · exact fun _ ha => ha
  · exact fun e => hopen.1.answered (by simp)

/-- What rests does not touch a target that has its status. -/
theorem keeps_brought {m : Engine α} (hm : Moves (B.Rests [self]) m) :
    Keeps (fun w => B.Brought w₀ self w ∧ w.now.count < E.slots ∧ B.Knows w self) m := by
  rintro w ⟨hb,hroom,hk⟩
  obtain ⟨hb',hi⟩ := hm w hb.books (by simpa using hk)
  exact ⟨hb.idles hb' hi,by rw [hi.count]; exact hroom,hk.mono hi.next⟩

theorem noRule_answered (hself : self < w₀.now.next) (h : B.Opened w₀ self [self] w) :
    wp (noRule self) (B.Answered w₀ self) w := by
  have hmem : self ∈ [self] := List.mem_cons_self
  have hmark := And.intro (h.markError hself) (And.intro h.room (h.knows self hmem))
  have hend : ∀ (o : Outcome Value Value) w, (∀ x, o ≠ .ret x) →
      (B.Brought w₀ self w ∧ w.now.count < E.slots ∧ B.Knows w self) → B.Answered w₀ self o w :=
    fun o w ho hw => ⟨hw.1,.inl hw.2.1,fun _ hr => absurd hr (ho _)⟩
  unfold noRule
  rw [markError,wp_bind_assoc,setStatus,wp_bind_setField,wp_bind_emit,wp_bind_core]
  apply (keeps_brought (rests_concatText _)).wp_bind hmark _ hend
  intro name w h
  apply (keeps_brought (rests_setField hmem (by decide))).wp_bind h _ hend
  exact fun _ w h => ⟨h.1,.inl h.2.1,fun _ hr => by cases hr⟩

/-- After the dependencies the target waits, or there is a free slot for its job. -/
theorem finishTargetUpdate_answered (hself : self < w₀.now.next) (b : Pass)
    (h : B.Opened w₀ self [self] w ∨ B.Brought w₀ self w ∧ b.mustWait = true)
    (hwait : B.Waiting b w) :
    wp (finishTargetUpdate E self b) (B.Answered w₀ self) w := by
  have hend : ∀ (o : Outcome Value Value) w, (∀ x, o ≠ .ret x) → B.Opened w₀ self [self] w →
      B.Answered w₀ self o w := fun o w ho hw => hw.answered (ho _)
  have hmem : self ∈ [self] := List.mem_cons_self
  have hopen : b.mustWait ≠ true → B.Opened w₀ self [self] w := fun hne =>
    h.resolve_right fun hw => hne hw.2
  unfold finishTargetUpdate
  rw [wp_bind_core,wp_ite,wp_ite,wp_ite,wp_ite,wp_ite]
  split_ifs with hw hd hm hq hc
  · exact ⟨h.elim (fun h => h.toBrought) fun h => h.1,.inr rfl,fun hm _ => hwait hm hw⟩
  · refine ⟨(hopen hw).markError hself,.inl (hopen hw).room,fun _ hr => ?_⟩
    have hv : (w.now.rawset self "status" Status.error.toValue).attr self "status" =
        Status.error.toValue := attr_status_rawset w.now self .error
    cases hv.symm.trans (Outcome.ret.inj hr)
  · exact (hopen hw).answered (by simp)
  · have ho := hopen hw
    have hlt := ho.lt_next hmem
    apply wp_mono (jobsStart_books ho.books (ho.knows self hmem) ho.unsettled ho.room hc)
    intro o w' hs
    refine ⟨⟨hs.books,ho.next.trans hs.next,fun q hq hr => ?_,ho.count.trans hs.count⟩,hs.room,?_⟩
    · rw [hs.others q (hq.trans_le ho.next) (by rintro rfl; exact hr .refl)]
      exact ho.status q hq hr
    · intro hm hr
      have hraw := hs.own _ hr
      refine count_pos_of_running hs.books hm (hlt.trans_le hs.next) ?_
      rw [Core.attr_eq_rawget (by rw [hraw]; exact toValue_ne_nil _),hraw]
  · apply (keeps_opened (rests_unbuildable hmem) hmem).wp_bind (hopen hw) _ hend
    rintro (_ | _) w ho
    · exact ho.answered (by simp [Status.toValue])
    · exact noRule_answered hself ho
  · exact (hopen hw).answered (by simp [Status.toValue])

/-- The names in the dependency table of a target are those it had in the beginning. -/
theorem Knows.readDeps (hk : B.Knows w self) (hb : B.Books w) {s : Finset String} {c : Core}
    (hr : readDeps self w.now = (.ret s,c)) : s ⊆ B.origin.deps self := by
  rcases readDeps_cases self w.now with ⟨s',hs,he⟩ | ⟨e,he⟩ <;> rw [he] at hr <;> cases hr
  have hraw := hk.deps hb hs
  rw [← Core.deps_of_rawget hraw]
  rcases hk with ⟨m,hm,_⟩ | ⟨hle,hlt⟩
  · exact hb.stays.deps self (B.ready.sound.registered hm)
  · rw [(hb.stays.later self hle hlt).deps]
    exact Finset.empty_subset _

/-- Only dependencies are gone through. -/
theorem visitStart_opened (h : B.Opened w₀ self [self] w) : wp (visitStart E self) (fun o w' =>
    B.Opened w₀ self [self] w' ∧ ∀ p, o = .ret p → ∀ m ∈ p.2, m ∈ B.origin.deps self) w := by
  have hself : self ∈ [self] := List.mem_cons_self
  have hend : ∀ (o : Outcome Value (Bool × List String)) w', (∀ x, o ≠ .ret x) →
      B.Opened w₀ self [self] w' → B.Opened w₀ self [self] w' ∧
        ∀ p, o = .ret p → ∀ m ∈ p.2, m ∈ B.origin.deps self :=
    fun o w' ho hw => ⟨hw,fun p hp => absurd hp (ho p)⟩
  unfold visitStart
  apply (keeps_opened (rests_ensureDepsNewer hself) hself).wp_bind h _ hend
  intro _ w₁ h
  apply (keeps_opened (rests_missing hself) hself).wp_bind h _ hend
  intro mustBuild w₂ h
  have hdeps : wp (quietly (readDeps self) : Engine (Finset String)) (fun o w' =>
      B.Opened w₀ self [self] w' ∧ ∀ s, o = .ret s → s ⊆ B.origin.deps self) w₂ := by
    refine ⟨keeps_opened (rests_quietly (idles_readDeps self)) hself w₂ h,fun s hs => ?_⟩
    exact (h.knows self hself).readDeps h.books (Prod.ext hs rfl)
  apply wp_bind_of hdeps
  · rintro deps w₃ ⟨h,hsub⟩
    have h' := keeps_opened (rests_quietly (idles_enumerate E deps)) hself w₃ h
    refine ⟨h',fun p hp m hm => ?_⟩
    cases hp
    exact hsub deps rfl ((E.names.mem_order _ _ m).mp hm)
  · exact fun e w' hw => hend _ w' (by simp) hw.1
  · exact fun w' hw => hend _ w' (by simp) hw.1

/-- Bringing any target up to date keeps the books, and leaves a free slot if it does not
answer `running`. -/
theorem bringUpToDate_answered (n : ℕ) (h : Called B w self) :
    wp (bringUpToDate E n self) (B.Answered w self) w := by
  induction n generalizing self w with
  | zero => exact ⟨.refl h.books self,.inl h.room,fun _ hr => by cases hr⟩
  | succ n ih =>
    have hself := h.knows.lt_next h.books
    apply wp_bringUpToDate E (fun l b w' => (B.Opened w self [self] w' ∧ B.Waiting b w') ∧
      ∀ m ∈ l, m ∈ B.origin.deps self) fun b w' => (B.Opened w self [self] w' ∨
        B.Brought w self w' ∧ b.mustWait = true) ∧ B.Waiting b w'
    · exact fun hs => ⟨.refl h.books self,.inl h.room,fun hm hr =>
        count_pos_of_running h.books hm hself (Outcome.ret.inj hr)⟩
    · intro hs
      apply wp_mono (visitStart_opened
        ⟨.refl h.books self,h.room,h.books.accounts.unsettled hself hs,by simpa using h.knows⟩)
      rintro (p | e | _) w' ⟨hopen,hdeps⟩
      · exact ⟨⟨hopen,fun _ hb => by cases hb⟩,hdeps p rfl⟩
      · exact hopen.answered (by simp)
      · exact hopen.answered (by simp)
    · rintro name l b w' ⟨hw',hl⟩
      apply wp_mono (depStep_answered (fun o w hc => ih hc) h.books hself hw'
        (hl name List.mem_cons_self))
      rintro ((_ | _ | _) | _ | _) w'' hst
      · exact ⟨hst,fun m hm => hl m (List.mem_cons_of_mem _ hm)⟩
      · exact ⟨.inr ⟨hst.1,hst.2.1⟩,hst.2.2⟩
      · exact hst
      · exact hst
      · exact hst
    · exact fun _ _ hw' => ⟨.inl hw'.1.1,hw'.1.2⟩
    · exact fun b w' hw' => finishTargetUpdate_answered hself b hw'.1 hw'.2

end Build
end Presto
