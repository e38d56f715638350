import Presto.Program.Loop

/-! Programs over a state that remembers its observable events, each with the state in
which it happened. The newest event comes first. -/
namespace Program

variable {σ ε α η : Type}

structure Traced (σ η : Type) where
  now : σ
  trace : List (η × σ)

namespace Prog

/-- Run a program on the present state; it leaves no event. -/
def traced (m : Prog σ ε α) : Prog (Traced σ η) ε α := fun w =>
  ((m w.now).1,{ w with now := (m w.now).2 })

def emit (e : η) : Prog (Traced σ η) ε Unit :=
  modify fun w => { w with trace := (e,w.now)::w.trace }

end Prog

@[simp] theorem wp_traced (m : Prog σ ε α) (Q : Outcome ε α → Traced σ η → Prop)
    (w : Traced σ η) :
    wp (Prog.traced m) Q w ↔ wp m (fun o s => Q o { w with now := s }) w.now := Iff.rfl

@[simp] theorem wp_emit (e : η) (Q : Outcome ε Unit → Traced σ η → Prop) (w : Traced σ η) :
    wp (Prog.emit e) Q w ↔ Q (.ret ()) { w with trace := (e,w.now)::w.trace } := Iff.rfl

namespace Traced

/-- Every event so far, seen in its own state, satisfies `P`. -/
def Always (P : η → σ → Prop) (w : Traced σ η) : Prop := ∀ x ∈ w.trace, P x.1 x.2

/-- From `w` to `w'` there are only events that satisfy `P`. -/
def Emits (P : η → Prop) (w w' : Traced σ η) : Prop :=
  ∃ l, w'.trace = l++w.trace ∧ ∀ x ∈ l, P x.1

instance (P : η → Prop) : IsPreorder (Traced σ η) (Emits P) where
  refl w := ⟨[],rfl,by simp⟩
  trans := by
    rintro u v w ⟨l,hl,hP⟩ ⟨m,hm,hQ⟩
    refine ⟨m++l,by rw [hm,hl,List.append_assoc],?_⟩
    intro x hx
    rcases List.mem_append.mp hx with hx | hx
    · exact hQ x hx
    · exact hP x hx

theorem Emits.mono {P Q : η → Prop} {w w' : Traced σ η} (h : Emits P w w')
    (hPQ : ∀ e, P e → Q e) : Emits Q w w' := by
  obtain ⟨l,hl,hP⟩ := h
  exact ⟨l,hl,fun x hx => hPQ _ (hP x hx)⟩

theorem Emits.always {P : η → Prop} {w w' : Traced σ η} (h : Emits P w w') {Q : η → σ → Prop}
    (hw : w.Always Q) (hPQ : ∀ e s, P e → Q e s) : w'.Always Q := by
  obtain ⟨l,hl,hP⟩ := h
  intro x hx
  rw [hl] at hx
  rcases List.mem_append.mp hx with hx | hx
  · exact hPQ _ _ (hP x hx)
  · exact hw x hx

/-- A relation between events and all earlier ones is kept by events that satisfy it towards
every event. -/
theorem Emits.pairwise {P : η → Prop} {w w' : Traced σ η} (h : Emits P w w')
    {R : η × σ → η × σ → Prop} (hw : w.trace.Pairwise R) (hPR : ∀ x y, P x.1 → R x y) :
    w'.trace.Pairwise R := by
  obtain ⟨l,hl,hP⟩ := h
  rw [hl]
  apply List.pairwise_append.mpr
  refine ⟨?_,hw,fun x hx y _ => hPR x y (hP x hx)⟩
  exact List.pairwise_of_forall_mem_list fun x hx y _ => hPR x y (hP x hx)

/-- Every state in which an event happened satisfies `P`, and the states move along `R`. -/
structure Recorded (P : σ → Prop) (R : σ → σ → Prop) (w : Traced σ η) : Prop where
  always : ∀ x ∈ w.trace, P x.2 ∧ R x.2 w.now
  ordered : w.trace.Pairwise fun new old => R old.2 new.2

section Recorded
variable {P : σ → Prop} {R : σ → σ → Prop} [IsPreorder σ R] {w : Traced σ η}

theorem Recorded.move (h : w.Recorded P R) {s : σ} (hs : R w.now s) :
    Recorded P R { w with now := s } :=
  ⟨fun x hx => ⟨(h.always x hx).1,trans_of R (h.always x hx).2 hs⟩,h.ordered⟩

theorem Recorded.emit (h : w.Recorded P R) (e : η) (hw : P w.now) :
    Recorded P R { w with trace := (e,w.now)::w.trace } := by
  refine ⟨?_,List.pairwise_cons.mpr ⟨fun x hx => (h.always x hx).2,h.ordered⟩⟩
  intro x hx
  rcases List.mem_cons.mp hx with rfl | hx
  · exact ⟨hw,refl_of R w.now⟩
  · exact h.always x hx

end Recorded

theorem moves_traced {P : η → Prop} (m : Prog σ ε α) :
    Moves (Emits P) (Prog.traced m : Prog (Traced σ η) ε α) := fun _ => ⟨[],rfl,by simp⟩

theorem moves_emit {P : η → Prop} {e : η} (h : P e) :
    Moves (Emits P) (Prog.emit e : Prog (Traced σ η) ε Unit) := fun w => ⟨[(e,w.now)],rfl,by simpa⟩

end Traced
end Program
