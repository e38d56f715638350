import Presto.Program.Loop

/-! Lists of assignments to one place: only the last one counts, so that the list may as well
be gone through twice. -/
namespace Program

variable {ι σ V : Type}

/-- The last value that a list of items writes. -/
def lastWrite (write : ι → Option V) : List ι → Option V
  | [] => none
  | i::l => (lastWrite write l).or (write i)

/-- After all items a place holds the last value written, or what it held before, as long as
the items keep an invariant; `I` sees the items that are still to come. -/
theorem foldl_lastWrite_of (apply : σ → ι → σ) (place : σ → V) (write : ι → Option V) (I : List ι → σ → Prop)
    (h : ∀ i l s, I (i::l) s → I l (apply s i) ∧ place (apply s i) = (write i).getD (place s))
    (l : List ι) (s : σ) (hs : I l s) :
    I [] (l.foldl apply s) ∧ place (l.foldl apply s) = (lastWrite write l).getD (place s) := by
  induction l generalizing s with
  | nil => exact ⟨hs,rfl⟩
  | cons i l ih =>
    obtain ⟨hi,hplace⟩ := h i l s hs
    obtain ⟨hend,hlast⟩ := ih (apply s i) hi
    refine ⟨hend,?_⟩
    rw [List.foldl_cons,hlast,hplace,lastWrite]
    cases lastWrite write l <;> rfl

/-- After all items a place holds the last value written, or what it held before. -/
theorem foldl_lastWrite (apply : σ → ι → σ) (place : σ → V) (write : ι → Option V) (l : List ι)
    (h : ∀ i ∈ l, ∀ s, place (apply s i) = (write i).getD (place s)) (s : σ) :
    place (l.foldl apply s) = (lastWrite write l).getD (place s) :=
  (foldl_lastWrite_of apply place write (fun l _ => ∀ i ∈ l, ∀ s, place (apply s i) = (write i).getD (place s))
    (fun i _ s hs => ⟨fun j hj => hs j (List.mem_cons_of_mem i hj),hs i List.mem_cons_self s⟩) l s h).2

theorem exists_of_lastWrite {write : ι → Option V} {l : List ι} {v : V} (h : lastWrite write l = some v) :
    ∃ i ∈ l, write i = some v := by
  induction l with
  | nil => cases h
  | cons i l ih =>
    rcases Option.or_eq_some_iff.mp h with h | ⟨_,h⟩
    · obtain ⟨j,hj,hv⟩ := ih h
      exact ⟨j,List.mem_cons_of_mem i hj,hv⟩
    · exact ⟨i,List.mem_cons_self,h⟩

/-- If no two items write different values, the last value written is that of any of them. -/
theorem lastWrite_of_mem {write : ι → Option V} {l : List ι} {i : ι} {v : V} (hi : i ∈ l) (hv : write i = some v)
    (h : ∀ j ∈ l, ∀ w, write j = some w → w = v) : lastWrite write l = some v := by
  cases hw : lastWrite write l with
  | none =>
    induction l with
    | nil => cases hi
    | cons j l ih =>
      obtain ⟨hl,hj⟩ := Option.or_eq_none_iff.mp hw
      rcases List.mem_cons.mp hi with rfl | hi
      · rw [hj] at hv
        cases hv
      · exact ih hi (fun k hk => h k (List.mem_cons_of_mem j hk)) hl
  | some w =>
    obtain ⟨j,hj,hjw⟩ := exists_of_lastWrite hw
    rw [h j hj w hjw]

theorem foldl_twice (apply : σ → ι → σ) (place : σ → V) (write : ι → Option V) (l : List ι)
    (h : ∀ i ∈ l, ∀ s, place (apply s i) = (write i).getD (place s)) (s : σ) :
    place (l.foldl apply (l.foldl apply s)) = place (l.foldl apply s) := by
  rw [foldl_lastWrite apply place write l h,foldl_lastWrite apply place write l h]
  cases lastWrite write l <;> rfl

end Program
