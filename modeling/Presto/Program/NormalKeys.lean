import Mathlib.Logic.Function.Basic
import Mathlib.Tactic

/-! Tables that are to have one entry for all spellings of a key: new keys are stored in a normal
form, and a key that is not found is looked up in its normal form. -/
namespace Program

variable {κ ν : Type}

/-- All keys are in normal form. -/
def Normal (norm : κ → κ) (t : κ → Option ν) : Prop := ∀ k, t k ≠ none → norm k = k

/-- A read of `key`. -/
def fetch (norm : κ → κ) (t : κ → Option ν) (key : κ) : Option ν :=
  match t key with
  | none => t (norm key)
  | some v => some v

/-- A write to `key`; a key that is there already is used as it is. -/
def store [DecidableEq κ] (norm : κ → κ) (t : κ → Option ν) (key : κ) (v : Option ν) : κ → Option ν :=
  Function.update t (if t key = none then norm key else key) v

section
variable {norm : κ → κ} {t : κ → Option ν}

theorem normal_empty : Normal norm (fun _ => (none : Option ν)) := fun _ h => absurd rfl h

theorem Normal.fetch_eq (h : Normal norm t) (key : κ) : fetch norm t key = t (norm key) := by
  unfold fetch
  cases hk : t key with
  | none => rfl
  | some v => rw [h key (by rw [hk]; simp),hk]

/-- Two keys of the table are not two spellings of one. -/
theorem Normal.unique (h : Normal norm t) {a b : κ} (ha : t a ≠ none) (hb : t b ≠ none)
    (hab : norm a = norm b) : a = b := by
  rw [← h a ha,hab,h b hb]

variable [DecidableEq κ]

theorem Normal.store_eq (h : Normal norm t) (key : κ) (v : Option ν) :
    store norm t key v = Function.update t (norm key) v := by
  unfold store
  split_ifs with hk
  · rfl
  · rw [h key hk]

theorem Normal.update (h : Normal norm t) {key : κ} (hkey : norm key = key) (v : Option ν) :
    Normal norm (Function.update t key v) := by
  intro k hk
  by_cases he : k = key
  · rw [he,hkey]
  · rw [Function.update_of_ne he] at hk
    exact h k hk

end
end Program
