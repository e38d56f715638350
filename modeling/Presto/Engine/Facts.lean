import Presto.Engine.Signs

/-! The facts about the targets that hold in every state of a build, and the steps of
`bring_up_to_date` that leave them as they are. -/
namespace Presto
open Program Traced

namespace Build.Signs
variable {E : Env} {B : Build E} (S : B.Signs)

abbrev done (c : Core) (m : String) : Prop := B.Done S.Still S.Source c m

/-- When the job of `o` was started, everything it depends on was done. -/
def Begun (o : ObjId) (c : Core) : Prop :=
  ∃ t, S.Inv ⟨c,t⟩ ∧ (∀ m q, B.Target m q → c.rawget q "status" = Status.updated.toValue →
    S.Good q ⟨c,t⟩) ∧ (∀ i j, c.running.lookup i = some j → ∃ q, B.Runs q j.command j.target ∧
      ¬S.Sure q ∧ c.rawget q "status" = Status.running.toValue) ∧ ∀ n ∈ B.origin.deps o, S.done c n

/-- The target has a job, or its command has finished. -/
def Active (c : Core) (o : ObjId) : Prop :=
  c.rawget o "status" = Status.running.toValue ∨ c.rawget o "status" = Status.updated.toValue

structure Facts (w : World) : Prop where
  inv : S.Inv w
  pruned : ∀ m o, B.Target m o → w.now.deps o = B.origin.deps o ∨
    w.now.rawget o "dep_status" = Status.error.toValue
  clear : ∀ o < B.origin.next, (∀ m, ¬B.Target m o) →
    w.now.rawget o "status" = .nil ∧ w.now.rawget o "dep_status" = .nil
  closed : ∀ m o, B.Target m o → Active w.now o → ∀ n ∈ B.origin.deps o, S.done w.now n
  touched : ∀ o, Active w.now o → Touched w o ∧ ∃ m, B.Target m o
  sure : ∀ s ∈ starts w, ¬S.Sure s.1
  good : ∀ m o, B.Target m o → w.now.rawget o "status" = Status.updated.toValue → S.Good o w
  jobs : ∀ i j, w.now.running.lookup i = some j → ∃ o, B.Runs o j.command j.target ∧ (o,i) ∈ starts w ∧
    w.now.rawget o "status" = Status.running.toValue
  begun : ∀ x ∈ w.trace, ∀ o i, x.1 = .start o i → S.Begun o x.2

variable {S} {w w' : World} {c : Core} {o : ObjId}

theorem status_of_idles {K : Finset String} {c c' : Core} (h : c.Idles K c') (o : ObjId) :
    c'.rawget o "status" = c.rawget o "status" ∨ c'.rawget o "status" = .nil := by
  by_cases ho : o < c.next
  · exact .inl (h.status o ho)
  · by_cases ho' : o < c'.next
    · exact .inr (h.unstarted o (not_lt.mp ho) ho')
    · left
      rw [Core.rawget,h.beyond o (not_lt.mp ho')]
      rfl

theorem Active.of_idles {K : Finset String} {c c' : Core} (h : c.Idles K c') (ha : Active c' o) :
    Active c o := by
  rcases status_of_idles h o with he | he
  · unfold Active at ha
    rwa [he] at ha
  · exact absurd he (by rcases ha with ha | ha <;> rw [ha] <;> exact toValue_ne_nil _)

/-- A step that concerns neither the jobs nor what there is to build. -/
theorem Facts.move (h : S.Facts w) (hr : B.Rooted) (hb : B.Ledger w) (hi : w.now.Idles B.guarded c)
    (hf : w.now.Firm B.guarded c) (hinv : S.Inv { w with now := c }) : S.Facts { w with now := c } where
  inv := hinv
  pruned m o ht := by
    have ho := ht.lt.trans_le hb.stays.next
    exact (h.pruned m o ht).imp (fun he => (hf.deps hr.deps o ho).trans he)
      fun he => (hf.failed hr.failed o ho).trans he
  clear o ho hn := by
    have ho' := ho.trans_le hb.stays.next
    obtain ⟨hs,hd⟩ := h.clear o ho hn
    exact ⟨(hi.status o ho').trans hs,(hf.failed hr.failed o ho').trans hd⟩
  closed m o ht ha n hn :=
    (h.closed m o ht (ha.of_idles hi) n hn).mono hb.stays.next hi.advances
  touched o ha := h.touched o (ha.of_idles hi)
  sure := h.sure
  good m o ht hs := S.keeps (h.good m o ht ((hi.status o (ht.lt.trans_le hb.stays.next)).symm.trans hs)) hf.files
  jobs i j hl := by
    change c.running.lookup i = some j at hl
    rw [hi.running] at hl
    obtain ⟨o,hrun,ht,hs⟩ := h.jobs i j hl
    obtain ⟨m,hm⟩ := hrun.target
    exact ⟨o,hrun,ht,(hi.status o (hm.lt.trans_le hb.stays.next)).trans hs⟩
  begun := h.begun

theorem touched_emit {e : Event} (he : ¬e.Starts) :
    Touched { w with trace := (e,w.now)::w.trace } o ↔ Touched w o := by
  unfold Touched
  rw [starts_emit he]

theorem Facts.emit (h : S.Facts w) {e : Event} (he : ¬e.Starts) :
    S.Facts { w with trace := (e,w.now)::w.trace } where
  inv := S.emit e h.inv
  pruned := h.pruned
  clear := h.clear
  closed := h.closed
  touched o ha := by
    rw [touched_emit he]
    exact h.touched o ha
  sure := by
    rw [starts_emit he]
    exact h.sure
  good m o ht hs := S.records e (h.good m o ht hs)
  jobs := by
    rw [starts_emit he]
    exact h.jobs
  begun x hx o i hxe := by
    rcases List.mem_cons.mp hx with rfl | hx
    · cases hxe
      exact absurd trivial he
    · exact h.begun x hx o i hxe

/-- The books and the facts are kept, and nothing changes for the jobs and the dependencies. -/
def Bears (S : B.Signs) (ks : List ObjId) (w w' : World) : Prop :=
  B.Books w → (∀ o ∈ ks, B.Knows w o) → S.Facts w →
    (B.Books w' ∧ S.Facts w') ∧ w.now.Idles B.guarded w'.now ∧ w.now.Firm B.guarded w'.now

instance (ks : List ObjId) : IsPreorder World (S.Bears ks) where
  refl _ hb _ h := ⟨⟨hb,h⟩,.refl _ _,.refl _ _⟩
  trans _ _ _ h h' hb hks hf := by
    obtain ⟨⟨hb',hf'⟩,hi,hm⟩ := h hb hks hf
    obtain ⟨hall,hi',hm'⟩ := h' hb' (fun o ho => (hks o ho).mono hi.next) hf'
    exact ⟨hall,hi.trans hi',hm.trans hm'⟩

variable {ks : List ObjId} {α : Type}

section
variable (hr : B.Rooted)
include hr

theorem bears_modify {f : Core → Core}
    (h : ∀ w, B.Books w → (∀ o ∈ ks, B.Knows w o) → w.now.Idles B.guarded (f w.now) ∧
      w.now.Bare B.guarded (f w.now)) : Moves (S.Bears ks) (quietly (Prog.modify f)) := by
  intro w hb hks hf
  obtain ⟨hi,hm⟩ := h w hb hks
  exact ⟨⟨hb.idles hi,hf.move hr hb.toLedger hi hm.firm (S.sees hb.toLedger hf.inv hi.toStays hm.sees)⟩,hi,hm.firm⟩

theorem bears_quietly {m : Lua α} (hi : Moves (Core.Idles B.guarded) m)
    (hm : Moves (Core.Bare B.guarded) m) : Moves (S.Bears ks) (quietly m) := fun w hb _ hf =>
  ⟨⟨hb.idles (hi w.now),hf.move hr hb.toLedger (hi w.now) (hm w.now).firm
    (S.sees hb.toLedger hf.inv (hi w.now).toStays (hm w.now).sees)⟩,hi w.now,(hm w.now).firm⟩

end

theorem bears_emit {e : Event} (he : ¬e.Starts) : Moves (S.Bears ks) (Prog.emit e : Engine Unit) :=
  fun _ hb _ hf => ⟨⟨hb.emit he,hf.emit he⟩,.refl _ _,.refl _ _⟩

theorem bears_core : Moves (S.Bears ks) core := moves_gets _

theorem bears_raiseError (msg : String) : Moves (S.Bears ks) (raiseError msg : Engine α) := moves_raise _

theorem bears_message (v : Value) : Moves (S.Bears ks) (message v) := by
  unfold message
  split
  · exact bears_emit id
  · exact bears_emit id
  · exact bears_raiseError _

theorem bears_messageIf (v : Value) : Moves (S.Bears ks) (messageIf v) :=
  moves_ite (bears_message v) (moves_pure _)

theorem bears_concatText (v : Value) : Moves (S.Bears ks) (concatText v) := by
  unfold concatText
  split
  · exact moves_pure _
  · exact moves_pure _
  · exact bears_raiseError _

section Lua
variable {K : Finset String}

theorem bare_targetIndex (key : String) : Moves (Core.Bare K) (targetIndex key) := by
  intro c
  rcases targetIndex_cases key c with ⟨_,_,h⟩ | ⟨_,_,_,h⟩ | ⟨_,_,_,h⟩ | ⟨_,_,_,h⟩ <;> rw [h]
  · exact .refl K c
  · exact .refl K c
  · exact .refl K c
  · exact c.bare_alloc _

theorem bare_asTable (v : Value) : Moves (Core.Bare K) (asTable v) := by
  cases v <;> exact fun c => .refl K c

theorem bare_enumerate (s : Finset String) : Moves (Core.Bare K) (enumerate E s) :=
  fun _ => Core.bare_of_heap rfl rfl rfl

theorem firm_readCached {key : String} (hk : key ∈ ["exists","timestamp"]) (getter : String) (o : ObjId) :
    Moves (Core.Firm K) (readCached E key getter o) := by
  intro c
  have hwp : wp (readCached E key getter o) (fun _ c' => c.Firm K c') c := by
    unfold readCached
    rw [wp_bind_gets]
    cases hh : (id c).holder o key with
    | some p => exact .refl K c
    | none =>
      dsimp only
      rw [wp_ite]
      split_ifs
      · rw [wp_bind]
        unfold wp
        rw [callGetter_state]
        cases (callGetter E ((id c).base o) getter c).1 with
        | ret v => exact Core.firm_rawset (.inr (by rcases List.mem_pair.mp hk with rfl | rfl <;> decide))
        | raise e => exact .refl K c
        | diverge => exact .refl K c
      · exact .refl K c
  exact hwp

end Lua

section Target
variable {self : ObjId} (hr : B.Rooted) (hself : self ∈ ks)
include hr hself

theorem bears_setField {key : String} {v : Value} (hk : key = "errmsg") :
    Moves (S.Bears ks) (setField self key v) := by
  subst hk
  exact bears_modify hr fun w hb hks =>
    ⟨Core.idles_rawset_of_mem ((hks self hself).lt_next hb) (by decide),Core.bare_rawset (.inr (by decide))⟩

theorem bears_ensureDepsNewer : Moves (S.Bears ks) (ensureDepsNewer self) := by
  refine moves_bind bears_core fun c => moves_ite (moves_pure _) ?_
  apply bears_modify hr
  intro w hb hks
  exact ⟨Core.idles_rawset_newer ((hks self hself).lt_next hb) ∅,Core.bare_rawset (.inr (by decide))⟩

/-- The note that a dependency is newer is no fact about a target. -/
theorem bears_markNewer {name : String} (hname : name ∈ B.origin.deps self) :
    Moves (S.Bears ks) (markNewer self name) := by
  intro w hb hks hf
  have hrests := rests_markNewer hself hname w hb hks
  have hbare : w.now.Bare B.guarded (markNewer self name w).2.now ∧
      (markNewer self name w).2.trace = w.trace := by
    have hk := hks self hself
    obtain ⟨hproxy,hobj⟩ := hb.attr_newer (hk.lt_next hb)
    unfold markNewer
    simp only [core,run_bind_gets]
    cases hd : w.now.attr self "deps_newer" with
    | names s => exact ⟨Core.bare_rawset (.inr (by decide)),rfl⟩
    | obj d =>
      have hreg := hobj d hd
      have hguard : name ∉ B.guarded := fun hk' =>
        hk.guarded_deps hb (by rw [hreg]; simp) hname hk' rfl
      exact ⟨Core.bare_rawset (.inl hguard),rfl⟩
    | proxy => exact absurd hd hproxy
    | _ => exact ⟨.refl _ _,rfl⟩
  obtain ⟨hm,htrace⟩ := hbare
  have hw : (markNewer self name w).2 = { w with now := (markNewer self name w).2.now } := by
    rw [← htrace]
  have hinv := S.sees hb.toLedger hf.inv hrests.2.toStays hm.sees
  have hfacts := hf.move hr hb.toLedger hrests.2 hm.firm hinv
  rw [← hw] at hfacts
  exact ⟨⟨hrests.1,hfacts⟩,hrests.2,hm.firm⟩

end Target
end Build.Signs
end Presto
