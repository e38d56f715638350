import Presto.Engine.Books
import Presto.Registry.Frame

/-! The parts of `bring_up_to_date` that neither start a job nor change a status: they move the
books of a build along without an entry. -/
namespace Presto
open Program Traced

theorem quietly_ret {α : Type} {m : Lua α} {a : α} {w : World} {c : Core} (h : m w.now = (.ret a,c)) :
    (quietly m : Engine α) w = (.ret a,{ w with now := c }) := by
  simp only [quietly,Prog.traced,h]

/-- A name is looked up: there is a table, or the lookup raises. -/
theorem wp_lookup {β : Type} {f : ObjId → Engine β} {Q : Outcome Value β → World → Prop} {name : String} {w : World}
    (hobj : ∀ o c, targetIndex name w.now = (.ret (.obj o),c) → wp (f o) Q { w with now := c })
    (hraise : ∀ e, Q (.raise e) { w with now := (targetIndex name w.now).2 }) : wp (do
      let v ← quietly (targetIndex name)
      let o ← quietly (asTable v)
      f o) Q w := by
  rcases hrun : targetIndex name w.now with ⟨v | e | _,c⟩ <;> rw [hrun] at hraise
  · apply wp_bind_ret (quietly_ret hrun)
    cases v with
    | obj o => exact hobj o c hrun
    | _ => exact hraise _
  · exact wp_bind_raise (by simp only [quietly,Prog.traced,hrun]) (hraise e)
  · rcases targetIndex_cases name w.now with ⟨_,_,he⟩ | ⟨_,_,_,he⟩ | ⟨_,_,_,he⟩ | ⟨_,_,_,he⟩
    all_goals cases hrun.symm.trans he

section Lua
variable {α : Type} {K : Finset String} (E : Env)

theorem idles_targetIndex (key : String) : Moves (Core.Idles K) (targetIndex key) := by
  intro c
  rcases targetIndex_cases key c with ⟨_,_,h⟩ | ⟨_,_,_,h⟩ | ⟨_,_,_,h⟩ | ⟨_,_,_,h⟩ <;> rw [h]
  · exact .refl K c
  · exact .refl K c
  · exact .refl K c
  · exact c.idles_alloc _

theorem idles_asTable (v : Value) : Moves (Core.Idles K) (asTable v) := by
  cases v <;> exact fun c => .refl K c

theorem idles_readDeps (o : ObjId) : Moves (Core.Idles K) (readDeps o) := by
  intro c
  rcases readDeps_cases o c with ⟨s,_,h⟩ | ⟨e,h⟩ <;> rw [h] <;> exact .refl K c

theorem idles_enumerate (s : Finset String) : Moves (Core.Idles K) (enumerate E s) :=
  fun _ => Core.idles_of_heap rfl rfl rfl rfl rfl rfl rfl

theorem idles_enumerateJobs : Moves (Core.Idles K) (enumerateJobs E) :=
  fun _ => Core.idles_of_heap rfl rfl rfl rfl rfl rfl rfl

theorem idles_resumeCommand (f : Fn) (name : Value) (i n : ℕ) :
    Moves (Core.Idles K) (resumeCommand E f name i n) := by
  unfold resumeCommand
  refine moves_bind (moves_gets id) fun c => ?_
  split
  · exact moves_pure _
  · split
    · refine moves_ite (moves_pure _) ?_
      split
      · refine moves_bind (moves_modify fun c => ?_) fun _ => moves_pure _
        exact Core.idles_of_heap rfl rfl rfl rfl rfl rfl rfl
      · exact moves_pure _
    · exact moves_pure _
  · refine moves_bind (moves_modify fun c => ?_) fun _ => moves_pure _
    exact Core.idles_of_heap rfl rfl rfl rfl rfl rfl rfl

/-- A command that yields does so because the code of the makefile does. -/
theorem resumeCommand_signal (f : Fn) (name : Value) (i n : ℕ) (c : Core) :
    ∃ s, (resumeCommand E f name i n c).1 = .ret s ∧
      ∀ v, s = .yielded v → (E.resume f name i n).signal = .yielded v := by
  unfold resumeCommand
  rw [run_bind_gets]
  split
  · exact ⟨_,rfl,fun v hv => by cases hv⟩
  · split
    · next path =>
      split
      · exact ⟨_,rfl,fun v hv => by cases hv⟩
      · cases E.md path (id c).files <;> exact ⟨_,rfl,fun v hv => by cases hv⟩
    · exact ⟨_,rfl,fun v hv => by cases hv⟩
  · exact ⟨_,rfl,fun v hv => hv⟩

/-- Only the code of the makefile yields. -/
theorem yields_of_resumeCommand {f : Fn} {name : Value} {i n : ℕ} {c : Core} {v : Value}
    (h : (resumeCommand E f name i n c).1 = .ret (.yielded v)) : f.yields E name i n = true := by
  have hother : f ≠ .nilCommand → f ≠ .dirCommand → (E.resume f name i n).signal = .yielded v →
      f.yields E name i n = true := by
    intro hnil hdir hs
    cases f <;> first | exact absurd rfl hnil | exact absurd rfl hdir | simp only [Fn.yields,hs]
  cases f with
  | nilCommand => cases h
  | dirCommand =>
    unfold resumeCommand at h
    rw [run_bind_gets] at h
    dsimp only at h
    split at h
    · split at h
      · cases h
      · next path _ =>
        cases hmd : E.md path (id c).files <;> rw [hmd] at h <;> cases h
    · cases h
  | _ => exact hother (by simp) (by simp) (Outcome.ret.inj h)

/-- A cached attribute is stored in a table of the target. -/
theorem idles_readCached {c : Core} (hc : c.Linked) {o : ObjId} (ho : o < c.next) {key : String}
    (hk : key ∈ ["exists","timestamp"]) (getter : String) :
    c.Idles K (readCached E key getter o c).2 := by
  have hwp : wp (readCached E key getter o) (fun _ c' => c.Idles K c') c := by
    unfold readCached
    rw [wp_bind_gets]
    cases hh : (id c).holder o key with
    | some p => exact .refl K c
    | none =>
      dsimp only
      rw [wp_ite]
      split_ifs
      · rw [wp_bind]
        have hset : ∀ v, c.Idles K (c.rawset (c.base o) key v) := fun v =>
          Core.idles_rawset_of_mem (hc.lt_next ho (c.base_mem o)) (by
            rcases List.mem_pair.mp hk with rfl | rfl <;> decide)
        unfold wp
        rw [callGetter_state]
        cases (callGetter E ((id c).base o) getter c).1 with
        | ret v => exact hset v
        | raise e => exact .refl K c
        | diverge => exact .refl K c
      · exact .refl K c
  exact hwp

end Lua

namespace Build
variable {E : Env} (B : Build E)

/-- The books are kept, and so is everything that concerns the jobs; the tables `ks` are those
that `bring_up_to_date` is about. -/
def Rests (ks : List ObjId) (w w' : World) : Prop :=
  B.Books w → (∀ o ∈ ks, B.Knows w o) → B.Books w' ∧ w.now.Idles B.guarded w'.now

variable {ks : List ObjId}

instance : IsPreorder World (B.Rests ks) where
  refl w h _ := ⟨h,.refl _ _⟩
  trans _ _ _ h h' hb hks := by
    obtain ⟨hb',hi⟩ := h hb hks
    obtain ⟨hb'',hi'⟩ := h' hb' fun o ho => (hks o ho).mono hi.next
    exact ⟨hb'',hi.trans hi'⟩

variable {B} {α : Type}

/-- A single assignment that may depend on what is known. -/
theorem rests_modify {f : Core → Core}
    (h : ∀ w, B.Books w → (∀ o ∈ ks, B.Knows w o) → w.now.Idles B.guarded (f w.now)) :
    Moves (B.Rests ks) (quietly (Prog.modify f)) := fun w hb hks => ⟨hb.idles (h w hb hks),h w hb hks⟩

theorem rests_quietly {m : Lua α} (h : Moves (Core.Idles B.guarded) m) :
    Moves (B.Rests ks) (quietly m) := fun w hb _ => ⟨hb.idles (h w.now),h w.now⟩

theorem rests_emit {e : Event} (he : ¬e.Starts) : Moves (B.Rests ks) (Prog.emit e : Engine Unit) :=
  fun _ hb _ => ⟨hb.emit he,.refl _ _⟩

theorem rests_core : Moves (B.Rests ks) core := moves_gets _

theorem rests_raiseError (msg : String) : Moves (B.Rests ks) (raiseError (α := α) msg) := moves_raise _

theorem rests_message (v : Value) : Moves (B.Rests ks) (message v) := by
  unfold message
  split
  · exact rests_emit id
  · exact rests_emit id
  · exact rests_raiseError _

theorem rests_messageIf (v : Value) : Moves (B.Rests ks) (messageIf v) :=
  moves_ite (rests_message v) (moves_pure _)

theorem rests_concatText (v : Value) : Moves (B.Rests ks) (concatText v) := by
  unfold concatText
  split
  · exact moves_pure _
  · exact moves_pure _
  · exact rests_raiseError _

theorem rests_lessThan (u v : Value) : Moves (B.Rests ks) (lessThan u v) := by
  unfold lessThan
  split
  · exact moves_pure _
  · exact moves_pure _
  · exact rests_raiseError _

theorem Books.newer {w : World} (h : B.Books w) {o : ObjId} (ho : o < w.now.next) : w.now.NewerOk o := by
  by_cases hlt : o < B.origin.next
  · exact h.stays.newer o hlt (B.ready.newer o)
  · exact (h.stays.later o (not_lt.mp hlt) ho).newer

/-- The dependencies of a target are its own. -/
theorem Knows.deps {w : World} {o : ObjId} (h : B.Knows w o) (hb : B.Books w) {s : Finset String}
    (hs : w.now.attr o "deps" = .names s) : w.now.rawget o "deps" = .names s := by
  have hraw : w.now.rawget o "deps" ≠ .nil := by
    rcases h with ⟨m,hm,ht⟩ | ⟨hle,hlt⟩
    · obtain ⟨t,ht⟩ := B.ready.sound.deps o ht
      exact hb.stays.hasDeps o (B.ready.sound.registered hm) (by simp [ht])
    · exact (hb.stays.later o hle hlt).hasDeps
  rwa [Core.attr_eq_rawget hraw] at hs

theorem Books.registered_lt {w : World} (h : B.Books w) {k : String} {o : ObjId}
    (hk : w.now.registry k = .obj o) : o < w.now.next := by
  rw [h.registry] at hk
  exact (B.ready.sound.registered hk).trans_le h.stays.next

theorem Books.holder_lt {w : World} (h : B.Books w) {o : ObjId} (ho : o < w.now.next) (k : String) :
    (w.now.holder o k).getD o < w.now.next := by
  cases hh : w.now.holder o k with
  | none => exact ho
  | some p => exact h.linked.lt_next ho (List.mem_of_find?_eq_some hh)

/-- A list of newer dependencies that is a target is the one registered as `deps_newer`. -/
theorem Books.attr_newer {w : World} (h : B.Books w) {o : ObjId} (ho : o < w.now.next) :
    w.now.attr o "deps_newer" ≠ .proxy ∧ ∀ d, w.now.attr o "deps_newer" = .obj d →
      w.now.registry "deps_newer" = .obj d := by
  unfold Core.attr
  cases hh : w.now.holder o "deps_newer" with
  | some p =>
    obtain ⟨hproxy,hobj⟩ := h.newer (h.linked.lt_next ho (List.mem_of_find?_eq_some hh))
    exact ⟨hproxy,fun d hd => absurd hd (hobj d)⟩
  | none =>
    dsimp only
    split_ifs
    · refine ⟨?_,fun _ => id⟩
      rw [h.registry]
      rcases B.ready.sound.bound "deps_newer" rfl with hn | ⟨d,hd,_⟩
      · simp [hn]
      · simp [hd]
    · exact ⟨by simp,fun d hd => by cases hd⟩

section Target
variable {self : ObjId} (hself : self ∈ ks)
include hself

theorem rests_setField {key : String} {v : Value}
    (hk : key ∈ ["exists","timestamp","errmsg","dep_status"]) :
    Moves (B.Rests ks) (setField self key v) :=
  rests_modify fun _ hb hks => Core.idles_rawset_of_mem ((hks self hself).lt_next hb) hk

theorem rests_readCached {key : String} (hk : key ∈ ["exists","timestamp"]) (getter : String) :
    Moves (B.Rests ks) (quietly (readCached E key getter self)) := by
  intro w hb hks
  have hi := idles_readCached (K := B.guarded) E hb.linked ((hks self hself).lt_next hb) hk getter
  exact ⟨hb.idles hi,hi⟩

theorem rests_missing : Moves (B.Rests ks) (missing E self) :=
  moves_ite (moves_pure _)
    (moves_bind (rests_readCached hself (by decide) _) fun _ => moves_pure _)

theorem rests_unbuildable : Moves (B.Rests ks) (unbuildable E self) :=
  moves_ite (moves_bind (rests_readCached hself (by decide) _) fun _ => moves_pure _)
    (moves_pure _)

theorem rests_ensureDepsNewer : Moves (B.Rests ks) (ensureDepsNewer self) := by
  refine moves_bind rests_core fun c => moves_ite (moves_pure _) ?_
  apply rests_modify
  exact fun w hb hks => Core.idles_rawset_newer ((hks self hself).lt_next hb) ∅

theorem rests_prune (name : String) : Moves (B.Rests ks) (prune self name) := by
  intro w hb hks
  have hk := hks self hself
  have hwp : wp (prune self name) (fun _ w' => B.Books w' ∧ w.now.Idles B.guarded w'.now) w := by
    unfold prune
    rcases readDeps_cases self w.now with ⟨s,hs,hr⟩ | ⟨e,hr⟩
    · refine wp_bind_ret (m := quietly (readDeps self)) (a := s) (by simp [quietly,Prog.traced,hr]; rfl) ?_
      have hsub : s.erase name ⊆ w.now.deps self := by
        rw [Core.deps_of_rawget (hk.deps hb hs)]
        exact Finset.erase_subset name s
      have hi := Core.idles_rawset_deps (K := B.guarded) (hk.lt_next hb) hsub
      exact ⟨hb.idles hi,hi⟩
    · exact wp_bind_raise (m := quietly (readDeps self)) (e := e) (by simp [quietly,Prog.traced,hr]) ⟨hb,.refl _ _⟩
  exact hwp

/-- The list of newer dependencies is a field of the target or of a class of it, or it is the
target that is registered as `deps_newer`. -/
theorem rests_markNewer {name : String} (hname : name ∈ B.origin.deps self) :
    Moves (B.Rests ks) (markNewer self name) := by
  intro w hb hks
  have hk := hks self hself
  have hlt := hk.lt_next hb
  obtain ⟨hproxy,hobj⟩ := hb.attr_newer hlt
  unfold markNewer
  simp only [core,run_bind_gets]
  cases hd : w.now.attr self "deps_newer" with
  | names s =>
    have hi := Core.idles_rawset_newer (K := B.guarded) (hb.holder_lt hlt "deps_newer") (insert name s)
    exact ⟨hb.idles hi,hi⟩
  | obj d =>
    have hreg := hobj d hd
    have hguard : ∀ k ∈ B.guarded, name ≠ k := fun k hk' =>
      hk.guarded_deps hb (by rw [hreg]; simp) hname hk'
    have hi : w.now.Idles B.guarded (w.now.rawset d name (.bool true)) := by
      apply Core.idles_rawset (hb.registered_lt hreg) (hguard _ B.status)
      · exact fun _ => ⟨fun hin => hguard _ hin rfl,rfl⟩
      · exact fun _ => ⟨by simp,by simp⟩
      · exact fun _ => ⟨by simp,by simp⟩
    exact ⟨hb.idles hi,hi⟩
  | proxy => exact absurd hd hproxy
  | _ => exact ⟨hb,.refl _ _⟩

end Target
end Build
end Presto
