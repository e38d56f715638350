import Presto.Engine.Idempotent

/-! Steps that leave the messages, the dependencies and the lists of newer dependencies alone. -/
namespace Presto
open Program Traced

namespace Core
variable {c : Core}

/-- The table has no list of newer dependencies, or a real one. -/
def Slate (c : Core) (o : ObjId) : Prop :=
  c.rawget o "deps_newer" = .nil ∨ ∃ s, c.rawget o "deps_newer" = .names s

/-- No list of newer dependencies is lost. -/
structure Grows (c c' : Core) : Prop where
  next : c.next ≤ c'.next
  newer : ∀ o < c.next, ∀ s, c.rawget o "deps_newer" = .names s → ∃ s', c'.rawget o "deps_newer" = .names s'

/-- No message is written, and no dependencies are. -/
structure Mute (c c' : Core) : Prop extends Grows c c' where
  kept : ∀ o < c.next, ∀ k ∈ ["errmsg","deps","dep_status"], c'.rawget o k = c.rawget o k
  slate : ∀ o < c.next, c.Slate o → c'.Slate o
  fresh : ∀ o, c.next ≤ o → o < c'.next →
    c'.rawget o "errmsg" = .nil ∧ (∃ s, c'.rawget o "deps" = .names s) ∧ c'.Slate o

instance : IsPreorder Core Grows where
  refl _ := ⟨le_rfl,fun _ _ s hs => ⟨s,hs⟩⟩
  trans _ _ _ h h' := by
    refine ⟨h.next.trans h'.next,fun o ho s hs => ?_⟩
    obtain ⟨s',hs'⟩ := h.newer o ho s hs
    exact h'.newer o (ho.trans_le h.next) s' hs'

instance : IsPreorder Core Mute where
  refl c := ⟨refl_of Grows c,fun _ _ _ _ => rfl,fun _ _ => id,fun _ h h' => absurd h' (not_lt.mpr h)⟩
  trans _ b _ h h' := by
    refine ⟨trans_of Grows h.toGrows h'.toGrows,
      fun o ho k hk => (h'.kept o (ho.trans_le h.next) k hk).trans (h.kept o ho k hk),
      fun o ho hs => h'.slate o (ho.trans_le h.next) (h.slate o ho hs),?_⟩
    intro o ho ho'
    by_cases hlt : o < b.next
    · rw [h'.kept o hlt _ (by decide),h'.kept o hlt _ (by decide)]
      obtain ⟨herr,hdeps,hslate⟩ := h.fresh o ho hlt
      exact ⟨herr,hdeps,h'.slate o hlt hslate⟩
    · exact h'.fresh o (not_lt.mp hlt) ho'

theorem mute_of_raw {c' : Core} (hnext : c'.next = c.next)
    (hraw : ∀ o, ∀ k ∈ ["errmsg","deps","dep_status","deps_newer"], c'.rawget o k = c.rawget o k) : c.Mute c' := by
  refine ⟨⟨hnext.ge,fun o _ s hs => ⟨s,(hraw o _ (by decide)).trans hs⟩⟩,
    fun o _ k hk => hraw o k (List.mem_append_left ["deps_newer"] hk),fun o _ hs => ?_,
    fun o h h' => absurd h' (not_lt.mpr (hnext.le.trans h))⟩
  unfold Slate
  rw [hraw o _ (by decide)]
  exact hs

theorem mute_of_heap {c' : Core} (hheap : c'.heap = c.heap) (hnext : c'.next = c.next) : c.Mute c' :=
  mute_of_raw hnext fun o k _ => by rw [rawget,hheap]; rfl

theorem mute_rawset {o : ObjId} {key : String} {v : Value} (hk : key ∉ ["errmsg","deps","dep_status","deps_newer"]) :
    c.Mute (c.rawset o key v) := by
  refine mute_of_raw rfl fun p k hmem => ?_
  rw [rawget_rawset,if_neg]
  intro h
  obtain ⟨_,rfl⟩ := h
  exact hk hmem

theorem mute_rawset_newer (o : ObjId) (s : Finset String) : c.Mute (c.rawset o "deps_newer" (.names s)) := by
  refine ⟨⟨le_rfl,fun p _ s' hs' => ?_⟩,fun p _ k hmem => ?_,fun p _ hp => ?_,fun _ h h' => absurd h' (not_lt.mpr h)⟩
  · rw [rawget_rawset]
    split_ifs
    · exact ⟨s,rfl⟩
    · exact ⟨s',hs'⟩
  · rw [rawget_rawset,if_neg]
    intro h
    obtain ⟨_,rfl⟩ := h
    exact absurd hmem (by decide)
  · unfold Slate at hp ⊢
    rw [rawget_rawset]
    split_ifs
    · exact .inr ⟨s,rfl⟩
    · exact hp

theorem grows_rawset {o : ObjId} {key : String} {v : Value} (hk : key ≠ "deps_newer") :
    c.Grows (c.rawset o key v) :=
  ⟨le_rfl,fun _ _ s hs => ⟨s,by rw [rawget_rawset,if_neg fun h => hk h.2.symm]; exact hs⟩⟩

theorem advances_note (o : ObjId) (v : Value) : c.Advances (c.rawset o "errmsg" v) :=
  ⟨le_rfl,fun q _ => by rw [rawget_rawset,if_neg fun h => absurd h.2 (by decide)]; exact .same _⟩

theorem mute_alloc (c : Core) (v : Value) :
    c.Mute (c.alloc (c.instance none (Function.update noFields "name" v))) := by
  have hraw : ∀ o < c.next, ∀ k,
      (c.alloc (c.instance none (Function.update noFields "name" v))).rawget o k = c.rawget o k := by
    intro o ho k
    rw [rawget,c.heap_alloc_of_lt _ ho]
    rfl
  refine ⟨⟨Nat.le_succ _,fun o ho s hs => ⟨s,(hraw o ho _).trans hs⟩⟩,fun o ho k _ => hraw o ho k,fun o ho hs => ?_,
    fun o ho ho' => ?_⟩
  · unfold Slate
    rw [hraw o ho]
    exact hs
  · obtain rfl : o = c.next := le_antisymm (Nat.le_of_lt_succ ho') ho
    refine ⟨?_,⟨∅,?_⟩,.inl ?_⟩
    · simp [rawget,Core.instance,noFields]
    · simp [rawget,Core.instance]
    · simp [rawget,Core.instance,noFields]

/-- Where there are only real lists the one that is found is a list. -/
theorem names_of_slate {o p : ObjId} (hslate : ∀ q ∈ o::(c.heap o).chain, c.Slate q)
    (hp : p ∈ o::(c.heap o).chain) {s : Finset String} (hs : c.rawget p "deps_newer" = .names s) :
    ∃ s, c.attr o "deps_newer" = .names s := by
  cases hh : c.holder o "deps_newer" with
  | none =>
    have hnil := List.find?_eq_none.mp hh p hp
    rw [hs] at hnil
    exact absurd (by simp) hnil
  | some q =>
    have hne : c.rawget q "deps_newer" ≠ .nil := by simpa using List.find?_some hh
    obtain ⟨s',hs'⟩ := (hslate q (List.mem_of_find?_eq_some hh)).resolve_left hne
    exact ⟨s',by simp only [attr,hh]; exact hs'⟩

end Core

section Lua
variable {E : Env}

theorem mute_targetIndex (key : String) : Moves Core.Mute (targetIndex key) := by
  intro c
  obtain ⟨_,_,h⟩ | ⟨_,_,_,h⟩ | ⟨_,_,_,h⟩ | ⟨_,_,_,h⟩ := targetIndex_cases key c <;> rw [h]
  · exact refl_of Core.Mute c
  · exact refl_of Core.Mute c
  · exact refl_of Core.Mute c
  · exact c.mute_alloc _

theorem mute_readDeps (o : ObjId) : Moves Core.Mute (readDeps o) := by
  intro c
  obtain ⟨s,_,h⟩ | ⟨e,h⟩ := readDeps_cases o c <;> rw [h] <;> exact refl_of Core.Mute c

theorem mute_readCached {key : String} (hk : key ∉ ["errmsg","deps","dep_status","deps_newer"]) (getter : String)
    (o : ObjId) :
    Moves Core.Mute (readCached E key getter o) := by
  refine moves_bind (moves_gets id) fun c => ?_
  split
  · exact moves_pure _
  · refine moves_ite (moves_bind (fun c' => ?_) fun v => moves_bind ?_ fun _ => moves_pure _) (moves_pure _)
    · rw [callGetter_state]
      exact refl_of Core.Mute c'
    · exact moves_modify fun c' => Core.mute_rawset hk

theorem mute_resumeCommand (f : Fn) (name : Value) (i n : ℕ) : Moves Core.Mute (resumeCommand E f name i n) := by
  unfold resumeCommand
  refine moves_bind (moves_gets id) fun c => ?_
  split
  · exact moves_pure _
  · split
    · next path =>
      refine moves_ite (moves_pure _) ?_
      cases E.md path c.files
      · exact moves_pure _
      · exact moves_bind (moves_modify fun c' => Core.mute_of_heap rfl rfl) fun _ => moves_pure _
    · exact moves_pure _
  · exact moves_bind (moves_modify fun c' => Core.mute_of_heap rfl rfl) fun _ => moves_pure _

end Lua

/-- No message is written, no dependencies are, and what has happened has happened. -/
structure Mute (w w' : World) : Prop extends Core.Mute w.now w'.now where
  emits : Emits (fun _ => True) w w'

instance : IsPreorder World Mute where
  refl w := ⟨refl_of Core.Mute w.now,refl_of (Emits _) w⟩
  trans _ _ _ h h' := ⟨trans_of Core.Mute h.toMute h'.toMute,trans_of (Emits _) h.emits h'.emits⟩

section
variable {α : Type} {E : Env}

theorem mute_quietly {m : Lua α} (h : Moves Core.Mute m) : Moves Mute (quietly m) :=
  fun w => ⟨h w.now,moves_traced m w⟩

theorem mute_modify {f : Core → Core} (h : ∀ c : Core, c.Mute (f c)) :
    Moves Mute (quietly (Prog.modify f) : Engine Unit) := mute_quietly (moves_modify h)

theorem mute_emit (e : Event) : Moves Mute (Prog.emit e : Engine Unit) :=
  fun w => ⟨refl_of Core.Mute w.now,moves_emit (P := fun _ => True) trivial w⟩

theorem mute_core : Moves Mute core := moves_gets _

theorem mute_message (v : Value) : Moves Mute (message v) := by
  unfold message
  split
  · exact mute_emit _
  · exact mute_emit _
  · exact moves_raise _

theorem mute_messageIf (v : Value) : Moves Mute (messageIf v) := moves_ite (mute_message v) (moves_pure _)

theorem mute_lessThan (u v : Value) : Moves Mute (lessThan u v) := by
  unfold lessThan
  split
  · exact moves_pure _
  · exact moves_pure _
  · exact moves_raise _

theorem mute_ensureDepsNewer (self : ObjId) : Moves Mute (ensureDepsNewer self) :=
  moves_bind mute_core fun _ => moves_ite (moves_pure _) (mute_modify fun _ => Core.mute_rawset_newer _ _)

theorem mute_missing (self : ObjId) : Moves Mute (missing E self) :=
  moves_ite (moves_pure _) (moves_bind (mute_quietly (mute_readCached (by decide) _ _)) fun _ => moves_pure _)

theorem mute_enumerate (s : Finset String) : Moves Mute (quietly (enumerate E s) : Engine (List String)) :=
  mute_quietly fun _ => Core.mute_of_heap rfl rfl

theorem mute_visitStart (self : ObjId) : Moves Mute (visitStart E self) := by
  refine moves_bind (mute_ensureDepsNewer self) fun _ => moves_bind (mute_missing self) fun mustBuild => ?_
  refine moves_bind (mute_quietly (mute_readDeps self)) fun deps => ?_
  exact moves_bind (mute_enumerate deps) fun order => moves_pure _

end

/-- A value is returned, of which `P` holds. -/
def Rets {α : Type} (P : α → World → Prop) : Outcome Value α → World → Prop
  | .ret a,w => P a w
  | _,_ => False

theorem wp_bind_rets {α β : Type} {m : Engine α} {f : α → Engine β} {P : α → World → Prop}
    {Q : Outcome Value β → World → Prop} {w : World} (hm : wp m (Rets P) w)
    (hf : ∀ a w', P a w' → wp (f a) Q w') : wp (m >>= f) Q w :=
  wp_bind_of hm hf (fun _ _ h => h.elim) fun _ h => h.elim

theorem Rets.imp {α : Type} {P Q : α → World → Prop} {r : Outcome Value α} {w : World} (h : Rets P r w)
    (hPQ : ∀ a, P a w → Q a w) : Rets Q r w := by
  cases r with
  | ret a => exact hPQ a h
  | raise e => exact h
  | diverge => exact h

/-- What holds whenever a program returns, of one that does. -/
theorem rets_of {α : Type} {m : Engine α} {P : α → World → Prop} {w : World} {R : World → Prop}
    (hm : wp m (Rets P) w) (hR : wp m (fun _ => R) w) : wp m (Rets fun a w' => P a w' ∧ R w') w := by
  apply wp_mono (wp_and hm hR)
  intro r w' h
  exact h.1.imp fun a ha => ⟨ha,h.2⟩

theorem rets_concatText (k : String) (w : World) :
    wp (concatText (.str k)) (Rets fun s w' => s = k ∧ w' = w) w := ⟨rfl,rfl⟩

end Presto
