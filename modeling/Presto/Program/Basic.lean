import Mathlib

/-! Stateful programs whose errors can be caught, with weakest preconditions for all three
ways of ending. A loop that exhausts the passes it is given diverges. -/
namespace Program

/-- How a program ends. Only `raise` can be caught. -/
inductive Outcome (ε α : Type)
  | ret (a : α)
  | raise (e : ε)
  | diverge
  deriving DecidableEq, Repr

/-- A program maps a state to its outcome and to the state it leaves behind. -/
def Prog (σ ε α : Type) := σ → Outcome ε α × σ

variable {σ ε α β γ : Type}

/-- The outcome of code that only computes a result. -/
def Outcome.ofExcept : Except ε α → Outcome ε α
  | .ok a => .ret a
  | .error e => .raise e

namespace Prog

def bind (m : Prog σ ε α) (f : α → Prog σ ε β) : Prog σ ε β := fun s =>
  match m s with
  | (.ret a,s') => f a s'
  | (.raise e,s') => (.raise e,s')
  | (.diverge,s') => (.diverge,s')

instance : Monad (Prog σ ε) where
  pure a := fun s => (.ret a,s)
  bind := bind

def gets (f : σ → α) : Prog σ ε α := fun s => (.ret (f s),s)

def modify (f : σ → σ) : Prog σ ε Unit := fun s => (.ret (),f s)

def raise (e : ε) : Prog σ ε α := fun s => (.raise e,s)

def diverge : Prog σ ε α := fun s => (.diverge,s)

def ofExcept (x : Except ε α) : Prog σ ε α := fun s => (Outcome.ofExcept x,s)

/-- Run a program and hand its error over as a value; divergence is not an error. -/
def attempt (m : Prog σ ε α) : Prog σ ε (Except ε α) := fun s =>
  match m s with
  | (.ret a,s') => (.ret (.ok a),s')
  | (.raise e,s') => (.ret (.error e),s')
  | (.diverge,s') => (.diverge,s')

end Prog

section Run
variable (s : σ)

@[simp] theorem run_pure (a : α) : (pure a : Prog σ ε α) s = (.ret a,s) := rfl
@[simp] theorem run_raise (e : ε) : (Prog.raise e : Prog σ ε α) s = (.raise e,s) := rfl
@[simp] theorem run_ofExcept (x : Except ε α) :
    (Prog.ofExcept x : Prog σ ε α) s = (Outcome.ofExcept x,s) := rfl
@[simp] theorem run_modify (f : σ → σ) :
    (Prog.modify f : Prog σ ε Unit) s = (.ret (),f s) := rfl
@[simp] theorem run_bind_pure (a : α) (f : α → Prog σ ε β) : (pure a >>= f) s = f a s := rfl
@[simp] theorem run_bind_gets (g : σ → α) (f : α → Prog σ ε β) :
    (Prog.gets g >>= f) s = f (g s) s := rfl
@[simp] theorem run_bind_modify (g : σ → σ) (f : Unit → Prog σ ε β) :
    (Prog.modify g >>= f) s = f () (g s) := rfl
@[simp] theorem run_bind_raise (e : ε) (f : α → Prog σ ε β) :
    (Prog.raise e >>= f) s = (.raise e,s) := rfl
@[simp] theorem run_ite {p : Prop} [Decidable p] (m n : Prog σ ε α) :
    (if p then m else n) s = if p then m s else n s := by split <;> rfl

theorem run_bind_of_ret {m : Prog σ ε α} {a : α} {s s' : σ} (h : m s = (.ret a,s'))
    (f : α → Prog σ ε β) : (m >>= f) s = f a s' := by
  change Prog.bind m f s = _
  rw [Prog.bind,h]

theorem run_bind_of_raise {m : Prog σ ε α} {e : ε} {s s' : σ} (h : m s = (.raise e,s'))
    (f : α → Prog σ ε β) : (m >>= f) s = (.raise e,s') := by
  change Prog.bind m f s = _
  rw [Prog.bind,h]

/-- A pure end does not change the state. -/
theorem snd_run_bind_pure (m : Prog σ ε α) (f : α → β) :
    ((m >>= fun a => pure (f a)) s).2 = (m s).2 := by
  change (Prog.bind m _ s).2 = _
  unfold Prog.bind
  rcases m s with ⟨_ | _ | _,s'⟩ <;> rfl

theorem ret_of_bind_pure {m : Prog σ ε α} {f : α → β} {s : σ} {b : β}
    (h : ((m >>= fun a => pure (f a)) s).1 = .ret b) : ∃ a, (m s).1 = .ret a ∧ b = f a := by
  change (Prog.bind m _ s).1 = _ at h
  unfold Prog.bind at h
  rcases hm : m s with ⟨a | _ | _,s'⟩ <;> rw [hm] at h <;> cases h
  exact ⟨a,rfl,rfl⟩

end Run

/-- The post-condition of the first half of a sequence: values go on to `K`. -/
def seqPost (K : α → σ → Prop) (Q : Outcome ε β → σ → Prop) : Outcome ε α → σ → Prop
  | .ret a,s => K a s
  | .raise e,s => Q (.raise e) s
  | .diverge,s => Q .diverge s

/-- The post-condition of a protected call: errors come back as values. -/
def catchPost (Q : Outcome ε (Except ε α) → σ → Prop) : Outcome ε α → σ → Prop
  | .ret a,s => Q (.ret (.ok a)) s
  | .raise e,s => Q (.ret (.error e)) s
  | .diverge,s => Q .diverge s

@[simp] theorem seqPost_ret (K : α → σ → Prop) (Q : Outcome ε β → σ → Prop) (a : α) (s : σ) :
    seqPost K Q (.ret a) s ↔ K a s := Iff.rfl
@[simp] theorem seqPost_raise (K : α → σ → Prop) (Q : Outcome ε β → σ → Prop) (e : ε) (s : σ) :
    seqPost K Q (.raise e) s ↔ Q (.raise e) s := Iff.rfl
@[simp] theorem seqPost_diverge (K : α → σ → Prop) (Q : Outcome ε β → σ → Prop) (s : σ) :
    seqPost K Q .diverge s ↔ Q .diverge s := Iff.rfl
@[simp] theorem catchPost_ret (Q : Outcome ε (Except ε α) → σ → Prop) (a : α) (s : σ) :
    catchPost Q (.ret a) s ↔ Q (.ret (.ok a)) s := Iff.rfl
@[simp] theorem catchPost_raise (Q : Outcome ε (Except ε α) → σ → Prop) (e : ε) (s : σ) :
    catchPost Q (.raise e) s ↔ Q (.ret (.error e)) s := Iff.rfl
@[simp] theorem catchPost_diverge (Q : Outcome ε (Except ε α) → σ → Prop) (s : σ) :
    catchPost Q .diverge s ↔ Q .diverge s := Iff.rfl

/-- Weakest precondition: running `m` from `s` ends as `Q` says. -/
def wp (m : Prog σ ε α) (Q : Outcome ε α → σ → Prop) (s : σ) : Prop := Q (m s).1 (m s).2

@[simp] theorem wp_pure (a : α) (Q : Outcome ε α → σ → Prop) (s : σ) :
    wp (pure a) Q s ↔ Q (.ret a) s := Iff.rfl
@[simp] theorem wp_gets (f : σ → α) (Q : Outcome ε α → σ → Prop) (s : σ) :
    wp (Prog.gets f) Q s ↔ Q (.ret (f s)) s := Iff.rfl
@[simp] theorem wp_modify (f : σ → σ) (Q : Outcome ε Unit → σ → Prop) (s : σ) :
    wp (Prog.modify f) Q s ↔ Q (.ret ()) (f s) := Iff.rfl
@[simp] theorem wp_raise (e : ε) (Q : Outcome ε α → σ → Prop) (s : σ) :
    wp (Prog.raise e) Q s ↔ Q (.raise e) s := Iff.rfl
@[simp] theorem wp_ofExcept (x : Except ε α) (Q : Outcome ε α → σ → Prop) (s : σ) :
    wp (Prog.ofExcept x) Q s ↔ Q (Outcome.ofExcept x) s := Iff.rfl
@[simp] theorem wp_diverge (Q : Outcome ε α → σ → Prop) (s : σ) :
    wp Prog.diverge Q s ↔ Q .diverge s := Iff.rfl

@[simp] theorem wp_bind (m : Prog σ ε α) (f : α → Prog σ ε β) (Q : Outcome ε β → σ → Prop)
    (s : σ) : wp (m >>= f) Q s ↔ wp m (seqPost (fun a => wp (f a) Q) Q) s := by
  change Q (Prog.bind m f s).1 (Prog.bind m f s).2 ↔ seqPost _ Q (m s).1 (m s).2
  unfold Prog.bind
  rcases m s with ⟨_ | _ | _,s'⟩ <;> rfl

@[simp] theorem wp_attempt (m : Prog σ ε α) (Q : Outcome ε (Except ε α) → σ → Prop) (s : σ) :
    wp (Prog.attempt m) Q s ↔ wp m (catchPost Q) s := by
  change Q (Prog.attempt m s).1 (Prog.attempt m s).2 ↔ catchPost Q (m s).1 (m s).2
  unfold Prog.attempt
  rcases m s with ⟨_ | _ | _,s'⟩ <;> rfl

@[simp] theorem wp_ite {p : Prop} [Decidable p] (m n : Prog σ ε α) (Q : Outcome ε α → σ → Prop)
    (s : σ) : wp (if p then m else n) Q s ↔ if p then wp m Q s else wp n Q s := by
  split <;> rfl

theorem wp_mono {m : Prog σ ε α} {Q R : Outcome ε α → σ → Prop} {s : σ} (h : wp m Q s)
    (hQR : ∀ o s', Q o s' → R o s') : wp m R s := hQR _ _ h

theorem wp_and {m : Prog σ ε α} {Q R : Outcome ε α → σ → Prop} {s : σ} (hQ : wp m Q s)
    (hR : wp m R s) : wp m (fun o s' => Q o s' ∧ R o s') s := ⟨hQ,hR⟩

/-- A Hoare triple over all three outcomes. -/
def Triple (P : σ → Prop) (m : Prog σ ε α) (Q : Outcome ε α → σ → Prop) : Prop :=
  ∀ s, P s → wp m Q s

/-- The sequencing rule: the first program's triple is used as it stands. -/
theorem wp_bind_of {m : Prog σ ε α} {f : α → Prog σ ε β} {R : Outcome ε α → σ → Prop}
    {Q : Outcome ε β → σ → Prop} {s : σ} (hm : wp m R s)
    (hret : ∀ a s', R (.ret a) s' → wp (f a) Q s')
    (hraise : ∀ e s', R (.raise e) s' → Q (.raise e) s')
    (hdiv : ∀ s', R .diverge s' → Q .diverge s') : wp (m >>= f) Q s := by
  rw [wp_bind]
  apply wp_mono hm
  rintro (a | e | _) s' h
  · exact hret a s' h
  · exact hraise e s' h
  · exact hdiv s' h

/-- The code comes back, and `K` holds if it returns. -/
def comesPost (K : α → σ → Prop) : Outcome ε α → σ → Prop
  | .ret a,s => K a s
  | .raise _,_ => True
  | .diverge,_ => False

/-- The code comes back, and `P` holds then. -/
def haltsPost (P : σ → Prop) (o : Outcome ε α) (s : σ) : Prop := o ≠ .diverge ∧ P s

theorem comesPost.ne_diverge {K : α → σ → Prop} {o : Outcome ε α} {s : σ} (h : comesPost K o s) : o ≠ .diverge := by
  rintro rfl
  exact h

theorem haltsPost.comes {P : σ → Prop} {o : Outcome ε α} {s : σ} (h : haltsPost P o s) :
    comesPost (fun _ => P) o s := by
  rcases o with a | e | _
  · exact h.2
  · trivial
  · exact absurd rfl h.1

/-- Code that comes back is followed by code that comes back. -/
theorem wp_bind_comes {m : Prog σ ε α} {f : α → Prog σ ε β} {K : α → σ → Prop} {L : β → σ → Prop} {s : σ}
    (hm : wp m (comesPost K) s) (hf : ∀ a s', K a s' → wp (f a) (comesPost L) s') :
    wp (m >>= f) (comesPost L) s := by
  apply wp_bind_of hm
  · exact hf
  · exact fun _ _ _ => trivial
  · exact fun _ h => h

theorem wp_bind_halts {m : Prog σ ε α} {f : α → Prog σ ε β} {P : σ → Prop} {s : σ}
    (hm : wp m (haltsPost P) s) (hf : ∀ a s', P s' → wp (f a) (haltsPost P) s') :
    wp (m >>= f) (haltsPost P) s := by
  apply wp_bind_of hm
  · exact fun a s' h => hf a s' h.2
  · exact fun e s' h => ⟨by simp,h.2⟩
  · exact fun s' h => absurd rfl h.1

/-- `P` holds however the code ends, and `K` too if it returns. -/
def alwaysPost (P : σ → Prop) (K : α → σ → Prop) : Outcome ε α → σ → Prop
  | .ret a,s => P s ∧ K a s
  | .raise _,s => P s
  | .diverge,s => P s

section Always
variable {P : σ → Prop} {K : α → σ → Prop} {L : β → σ → Prop} {o : Outcome ε α} {s : σ}

theorem alwaysPost.always (h : alwaysPost P K o s) : P s := by
  cases o with
  | ret a => exact h.1
  | raise e => exact h
  | diverge => exact h

theorem alwaysPost_of (hP : P s) (hK : ∀ a, o = .ret a → K a s) : alwaysPost P K o s := by
  cases o with
  | ret a => exact ⟨hP,hK a rfl⟩
  | raise e => exact hP
  | diverge => exact hP

theorem alwaysPost_iff : alwaysPost P K o s ↔ P s ∧ ∀ a, o = .ret a → K a s := by
  refine ⟨fun h => ⟨h.always,?_⟩,fun h => alwaysPost_of h.1 h.2⟩
  rintro a rfl
  exact h.2

theorem wp_bind_always {m : Prog σ ε α} {f : α → Prog σ ε β} (hm : wp m (alwaysPost P K) s)
    (hf : ∀ a s', P s' → K a s' → wp (f a) (alwaysPost P L) s') : wp (m >>= f) (alwaysPost P L) s := by
  apply wp_bind_of hm
  · exact fun a s' h => hf a s' h.1 h.2
  · exact fun _ _ h => h
  · exact fun _ h => h

end Always

theorem wp_bind_gets (g : σ → α) (f : α → Prog σ ε β) (Q : Outcome ε β → σ → Prop) (s : σ) :
    wp (Prog.gets g >>= f) Q s ↔ wp (f (g s)) Q s := Iff.rfl

theorem prog_bind_assoc (m : Prog σ ε α) (f : α → Prog σ ε β) (g : β → Prog σ ε γ) :
    (m >>= f) >>= g = m >>= fun a => f a >>= g := by
  funext s
  change Prog.bind (Prog.bind m f) g s = Prog.bind m (fun a => Prog.bind (f a) g) s
  unfold Prog.bind
  rcases m s with ⟨_ | _ | _,s'⟩ <;> rfl

theorem wp_bind_assoc (m : Prog σ ε α) (f : α → Prog σ ε β) (g : β → Prog σ ε γ)
    (Q : Outcome ε γ → σ → Prop) (s : σ) :
    wp ((m >>= f) >>= g) Q s ↔ wp (m >>= fun a => f a >>= g) Q s := by
  rw [prog_bind_assoc]

theorem wp_bind_modify (g : σ → σ) (f : Unit → Prog σ ε β) (Q : Outcome ε β → σ → Prop) (s : σ) :
    wp (Prog.modify g >>= f) Q s ↔ wp (f ()) Q (g s) := Iff.rfl

theorem wp_bind_ret {m : Prog σ ε α} {f : α → Prog σ ε β} {Q : Outcome ε β → σ → Prop} {a : α}
    {s s' : σ} (h : m s = (.ret a,s')) (hf : wp (f a) Q s') : wp (m >>= f) Q s := by
  rw [wp,run_bind_of_ret h]
  exact hf

theorem wp_bind_raise {m : Prog σ ε α} {f : α → Prog σ ε β} {Q : Outcome ε β → σ → Prop} {e : ε}
    {s s' : σ} (h : m s = (.raise e,s')) (hQ : Q (.raise e) s') : wp (m >>= f) Q s := by
  rw [wp,run_bind_of_raise h]
  exact hQ

/-- A program keeps `I` whatever its outcome. -/
def Keeps (I : σ → Prop) (m : Prog σ ε α) : Prop := ∀ s, I s → I (m s).2

/-- A program moves the state along `R` whatever its outcome. -/
def Moves (R : σ → σ → Prop) (m : Prog σ ε α) : Prop := ∀ s, R s (m s).2

theorem Keeps.wp {I : σ → Prop} {m : Prog σ ε α} (h : Keeps I m) {s : σ} (hs : I s) :
    wp m (fun _ s' => I s') s := h s hs

theorem Moves.wp {R : σ → σ → Prop} {m : Prog σ ε α} (h : Moves R m) (s : σ) :
    wp m (fun _ s' => R s s') s := h s

/-- Sequencing after a program that keeps `I`. -/
theorem Keeps.wp_bind {I : σ → Prop} {m : Prog σ ε α} {f : α → Prog σ ε β}
    {Q : Outcome ε β → σ → Prop} (hm : Keeps I m) {s : σ} (hs : I s)
    (hret : ∀ a s', I s' → Program.wp (f a) Q s')
    (hend : ∀ (o : Outcome ε β) s', (∀ b, o ≠ .ret b) → I s' → Q o s') :
    Program.wp (m >>= f) Q s := by
  apply wp_bind_of (hm.wp hs)
  · exact hret
  · exact fun e s' h => hend (.raise e) s' (by simp) h
  · exact fun s' h => hend .diverge s' (by simp) h

section Moves
variable {R : σ → σ → Prop}

theorem Moves.mono {R' : σ → σ → Prop} {m : Prog σ ε α} (h : Moves R m)
    (hR : ∀ s s', R s s' → R' s s') : Moves R' m := fun s => hR _ _ (h s)

theorem moves_modify {f : σ → σ} (h : ∀ s, R s (f s)) : Moves R (Prog.modify f : Prog σ ε Unit) := h

theorem moves_ite {p : Prop} [Decidable p] {m n : Prog σ ε α} (hm : Moves R m)
    (hn : Moves R n) : Moves R (if p then m else n) := by
  split
  · exact hm
  · exact hn

theorem moves_attempt {m : Prog σ ε α} (hm : Moves R m) : Moves R (Prog.attempt m) := by
  intro s
  have h : wp (Prog.attempt m) (fun _ s' => R s s') s := by
    rw [wp_attempt]
    apply wp_mono (hm.wp s)
    rintro (_ | _ | _) s' hs <;> exact hs
  exact h

variable [IsPreorder σ R]

theorem moves_pure (a : α) : Moves R (pure a : Prog σ ε α) := fun s => refl_of R s
theorem moves_gets (f : σ → α) : Moves R (Prog.gets f : Prog σ ε α) := fun s => refl_of R s
theorem moves_raise (e : ε) : Moves R (Prog.raise e : Prog σ ε α) := fun s => refl_of R s
theorem moves_diverge : Moves R (Prog.diverge : Prog σ ε α) := fun s => refl_of R s

theorem moves_bind {m : Prog σ ε α} {f : α → Prog σ ε β} (hm : Moves R m)
    (hf : ∀ a, Moves R (f a)) : Moves R (m >>= f) := by
  intro s
  have h : wp (m >>= f) (fun _ s' => R s s') s := by
    apply wp_bind_of (hm.wp s)
    · exact fun a s' hs => trans_of R hs (hf a s')
    · exact fun _ _ hs => hs
    · exact fun _ hs => hs
  exact h

end Moves

/-- A program moves the state along `R` and comes back. -/
def Serves (R : σ → σ → Prop) (m : Prog σ ε α) : Prop := ∀ s, R s (m s).2 ∧ (m s).1 ≠ .diverge

section Serves
variable {R : σ → σ → Prop}

theorem Serves.moves {m : Prog σ ε α} (h : Serves R m) : Moves R m := fun s => (h s).1

theorem Serves.mono {R' : σ → σ → Prop} {m : Prog σ ε α} (h : Serves R m)
    (hR : ∀ s s', R s s' → R' s s') : Serves R' m := fun s => ⟨hR _ _ (h s).1,(h s).2⟩

theorem serves_modify {f : σ → σ} (h : ∀ s, R s (f s)) : Serves R (Prog.modify f : Prog σ ε Unit) :=
  fun s => ⟨h s,by simp⟩

theorem serves_ite {p : Prop} [Decidable p] {m n : Prog σ ε α} (hm : Serves R m)
    (hn : Serves R n) : Serves R (if p then m else n) := by
  split
  · exact hm
  · exact hn

theorem serves_attempt {m : Prog σ ε α} (hm : Serves R m) : Serves R (Prog.attempt m) := by
  intro s
  have h : wp (Prog.attempt m) (fun o s' => R s s' ∧ o ≠ .diverge) s := by
    rw [wp_attempt]
    apply wp_mono (show wp m (fun o s' => R s s' ∧ o ≠ .diverge) s from hm s)
    rintro (_ | _ | _) s' hs
    · exact ⟨hs.1,by simp⟩
    · exact ⟨hs.1,by simp⟩
    · exact absurd rfl hs.2
  exact h

variable [IsPreorder σ R]

theorem serves_pure (a : α) : Serves R (pure a : Prog σ ε α) := fun s => ⟨refl_of R s,by simp⟩
theorem serves_gets (f : σ → α) : Serves R (Prog.gets f : Prog σ ε α) :=
  fun s => ⟨refl_of R s,by simp [Prog.gets]⟩
theorem serves_raise (e : ε) : Serves R (Prog.raise e : Prog σ ε α) :=
  fun s => ⟨refl_of R s,by simp⟩
theorem serves_ofExcept (x : Except ε α) : Serves R (Prog.ofExcept x : Prog σ ε α) :=
  fun s => ⟨refl_of R s,by cases x <;> simp [Outcome.ofExcept]⟩

theorem serves_bind {m : Prog σ ε α} {f : α → Prog σ ε β} (hm : Serves R m)
    (hf : ∀ a, Serves R (f a)) : Serves R (m >>= f) := by
  intro s
  have h : wp (m >>= f) (fun o s' => R s s' ∧ o ≠ .diverge) s := by
    apply wp_bind_of (show wp m (fun o s' => R s s' ∧ o ≠ .diverge) s from hm s)
    · exact fun a s' hs => ⟨trans_of R hs.1 (hf a s').1,(hf a s').2⟩
    · exact fun e s' hs => ⟨hs.1,by simp⟩
    · exact fun s' hs => absurd rfl hs.2
  exact h

end Serves

end Program
