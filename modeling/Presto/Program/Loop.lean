import Presto.Program.Basic

/-! Loops: a traversal whose body may go on, break or leave the enclosing function, and a
repetition with a bounded number of passes, each with its invariant rule. -/
namespace Program

variable {σ ε α β γ : Type}

/-- What one pass of a loop body asks for. -/
inductive Step (β γ : Type)
  | next (b : β)
  | stop (b : β)
  | leave (c : γ)
  deriving DecidableEq, Repr

/-- How a traversal ends: at its end or at a `break`, or by leaving the function around it. -/
inductive Exit (β γ : Type)
  | fell (b : β)
  | left (c : γ)
  deriving DecidableEq, Repr

def forEach (body : α → β → Prog σ ε (Step β γ)) : List α → β → Prog σ ε (Exit β γ)
  | [],b => pure (.fell b)
  | x::xs,b => do
    match ← body x b with
    | .next b' => forEach body xs b'
    | .stop b' => pure (.fell b')
    | .leave c => pure (.left c)

/-- The post-condition of one pass: `I` holds of the rest, or the traversal has ended. -/
def stepPost (I : β → σ → Prop) (Q : Outcome ε (Exit β γ) → σ → Prop) :
    Outcome ε (Step β γ) → σ → Prop
  | .ret (.next b),s => I b s
  | .ret (.stop b),s => Q (.ret (.fell b)) s
  | .ret (.leave c),s => Q (.ret (.left c)) s
  | .raise e,s => Q (.raise e) s
  | .diverge,s => Q .diverge s

@[simp] theorem stepPost_next (I : β → σ → Prop) (Q : Outcome ε (Exit β γ) → σ → Prop) (b : β)
    (s : σ) : stepPost I Q (.ret (.next b)) s ↔ I b s := Iff.rfl
@[simp] theorem stepPost_stop (I : β → σ → Prop) (Q : Outcome ε (Exit β γ) → σ → Prop) (b : β)
    (s : σ) : stepPost I Q (.ret (.stop b)) s ↔ Q (.ret (.fell b)) s := Iff.rfl
@[simp] theorem stepPost_leave (I : β → σ → Prop) (Q : Outcome ε (Exit β γ) → σ → Prop) (c : γ)
    (s : σ) : stepPost I Q (.ret (.leave c)) s ↔ Q (.ret (.left c)) s := Iff.rfl
@[simp] theorem stepPost_raise (I : β → σ → Prop) (Q : Outcome ε (Exit β γ) → σ → Prop) (e : ε)
    (s : σ) : stepPost I Q (.raise e) s ↔ Q (.raise e) s := Iff.rfl
@[simp] theorem stepPost_diverge (I : β → σ → Prop) (Q : Outcome ε (Exit β γ) → σ → Prop)
    (s : σ) : stepPost I Q .diverge s ↔ Q .diverge s := Iff.rfl

/-- The invariant rule of a traversal; `I` sees the keys that are still to come. -/
theorem wp_forEach {body : α → β → Prog σ ε (Step β γ)} (I : List α → β → σ → Prop)
    {Q : Outcome ε (Exit β γ) → σ → Prop}
    (hstep : ∀ x xs b s, I (x::xs) b s → wp (body x b) (stepPost (I xs) Q) s)
    (hend : ∀ b s, I [] b s → Q (.ret (.fell b)) s) (xs : List α) (b : β) (s : σ)
    (h : I xs b s) : wp (forEach body xs b) Q s := by
  induction xs generalizing b s with
  | nil => exact hend b s h
  | cons x xs ih =>
    unfold forEach
    apply wp_bind_of (hstep x xs b s h)
    · rintro (b' | b' | c) s' hs
      · exact ih b' s' hs
      · exact hs
      · exact hs
    · exact fun _ _ hs => hs
    · exact fun _ hs => hs

/-- The post-condition of a traversal in a function that promises `Q`: `F` holds at its end, or
the function has been left. -/
def exitPost (F : β → σ → Prop) (Q : Outcome ε γ → σ → Prop) : Outcome ε (Exit β γ) → σ → Prop
  | .ret (.fell b),s => F b s
  | .ret (.left c),s => Q (.ret c) s
  | .raise e,s => Q (.raise e) s
  | .diverge,s => Q .diverge s

/-- The invariant rule of a traversal with what follows it in its function. -/
theorem wp_bind_forEach {body : α → β → Prog σ ε (Step β γ)} {f : Exit β γ → Prog σ ε γ}
    (I : List α → β → σ → Prop) (F : β → σ → Prop) {Q : Outcome ε γ → σ → Prop}
    (hstep : ∀ x xs b s, I (x::xs) b s → wp (body x b) (stepPost (I xs) (exitPost F Q)) s)
    (hend : ∀ b s, I [] b s → F b s) (hfell : ∀ b s, F b s → wp (f (.fell b)) Q s)
    (hleft : ∀ c s, Q (.ret c) s → wp (f (.left c)) Q s) (xs : List α) (b : β) (s : σ)
    (h : I xs b s) : wp (forEach body xs b >>= f) Q s := by
  apply wp_bind_of (wp_forEach I hstep hend xs b s h)
  · rintro (b | c) s' hs
    · exact hfell b s' hs
    · exact hleft c s' hs
  · exact fun _ _ hs => hs
  · exact fun _ hs => hs

theorem moves_forEach {R : σ → σ → Prop} [IsPreorder σ R] {body : α → β → Prog σ ε (Step β γ)}
    (h : ∀ x b, Moves R (body x b)) (xs : List α) (b : β) : Moves R (forEach body xs b) := by
  induction xs generalizing b with
  | nil => exact moves_pure _
  | cons x xs ih =>
    unfold forEach
    apply moves_bind (h x b)
    rintro (b' | b' | c)
    · exact ih b'
    · exact moves_pure _
    · exact moves_pure _

theorem serves_forEach {R : σ → σ → Prop} [IsPreorder σ R] {body : α → β → Prog σ ε (Step β γ)}
    (h : ∀ x b, Serves R (body x b)) (xs : List α) (b : β) : Serves R (forEach body xs b) := by
  induction xs generalizing b with
  | nil => exact serves_pure _
  | cons x xs ih =>
    unfold forEach
    apply serves_bind (h x b)
    rintro (b' | b' | c)
    · exact ih b'
    · exact serves_pure _
    · exact serves_pure _

/-- Repeat `body` as long as it answers `true`, for at most the given number of passes. -/
def repeatWhile (body : Prog σ ε Bool) : ℕ → Prog σ ε Unit
  | 0 => Prog.diverge
  | n+1 => do if ← body then repeatWhile body n else pure ()

/-- The invariant rule of a repetition. -/
theorem wp_repeatWhile {body : Prog σ ε Bool} (I : σ → Prop) {Q : Outcome ε Unit → σ → Prop}
    (hstep : Triple I body (seqPost (fun b s' => if b then I s' else Q (.ret ()) s') Q))
    (hfuel : ∀ s, I s → Q .diverge s) (n : ℕ) (s : σ) (h : I s) :
    wp (repeatWhile body n) Q s := by
  induction n generalizing s with
  | zero => exact hfuel s h
  | succ n ih =>
    unfold repeatWhile
    rw [wp_bind]
    apply wp_mono (hstep s h)
    rintro (b | e | _) s' hs
    · cases b
      · exact hs
      · exact ih s' hs
    · exact hs
    · exact hs

theorem moves_repeatWhile {R : σ → σ → Prop} [IsPreorder σ R] {body : Prog σ ε Bool}
    (h : Moves R body) (n : ℕ) : Moves R (repeatWhile body n) := by
  induction n with
  | zero => exact moves_diverge
  | succ n ih =>
    unfold repeatWhile
    apply moves_bind h
    intro b
    exact moves_ite ih (moves_pure _)

/-- An enumeration picks, at each traversal, some order of the keys of a finite table. -/
structure Enumeration (κ : Type) where
  order : ℕ → Finset κ → List κ
  nodup : ∀ n s, (order n s).Nodup
  mem_order : ∀ n s x, x ∈ order n s ↔ x ∈ s

/-- The enumeration that goes through the keys in their order, at every traversal. -/
def Enumeration.sorted {κ : Type} [LinearOrder κ] : Enumeration κ where
  order _ s := Quot.liftOn s.val (List.insertionSort (· ≤ ·)) (by
    intro a b h
    apply List.Perm.eq_of_pairwise' (r := (· ≤ ·))
    · exact List.pairwise_insertionSort _ _
    · exact List.pairwise_insertionSort _ _
    · exact (List.perm_insertionSort _ a).trans (h.trans (List.perm_insertionSort _ b).symm))
  nodup _ s := by
    rcases s with ⟨⟨l⟩,h⟩
    exact (List.perm_insertionSort (· ≤ ·) l).nodup_iff.mpr h
  mem_order _ s x := by
    rcases s with ⟨⟨l⟩,h⟩
    exact (List.perm_insertionSort (· ≤ ·) l).mem_iff

example : Enumeration.sorted.order 0 ({"b","a"} : Finset String) = ["a","b"] := by decide

end Program
