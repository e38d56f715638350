import Mathlib

/-! Finite directed graphs: an edge that closes no cycle may be added, and without cycles the
number of reachable sources bounds the length of every path. -/
namespace Program

variable {V : Type}

/-- No node is reached from itself along one or more edges. -/
def Acyclic (G : V → V → Prop) : Prop := ∀ v, ¬Relation.TransGen G v v

def insertEdge (G : V → V → Prop) (a b : V) : V → V → Prop := fun u v => G u v ∨ u = a ∧ v = b

/-- A path in the larger graph avoids the new edge or splits at its last use. -/
theorem reaches_insertEdge {G : V → V → Prop} {a b u v : V}
    (h : Relation.ReflTransGen (insertEdge G a b) u v) :
    Relation.ReflTransGen G u v ∨
      Relation.ReflTransGen G u a ∧ Relation.ReflTransGen G b v := by
  induction h with
  | refl => exact .inl .refl
  | tail _ he ih =>
    rcases he with he | ⟨rfl,rfl⟩
    · rcases ih with ih | ⟨hu,hv⟩
      · exact .inl (ih.tail he)
      · exact .inr ⟨hu,hv.tail he⟩
    · rcases ih with ih | ⟨hu,_⟩
      · exact .inr ⟨ih,.refl⟩
      · exact .inr ⟨hu,.refl⟩

theorem Acyclic.insertEdge {G : V → V → Prop} (h : Acyclic G) {a b : V}
    (hab : ¬Relation.ReflTransGen G b a) : Acyclic (insertEdge G a b) := by
  intro x hx
  obtain ⟨y,he,hy⟩ := Relation.TransGen.head'_iff.mp hx
  have hp := reaches_insertEdge hy
  rcases he with he | ⟨rfl,rfl⟩
  · rcases hp with hp | ⟨hya,hbx⟩
    · exact h x (Relation.TransGen.head' he hp)
    · exact hab ((hbx.tail he).trans hya)
  · rcases hp with hp | ⟨_,hp⟩
    · exact hab hp
    · exact hab hp

theorem Acyclic.mono {G H : V → V → Prop} (h : Acyclic G) (hH : ∀ u v, H u v → G u v) :
    Acyclic H := fun v hv => h v (Relation.TransGen.mono hH v v hv)

section Height
open Classical

/-- The number of sources that are reached from `v`, itself included. -/
noncomputable def height (G : V → V → Prop) (sources : Finset V) (v : V) : ℕ :=
  (sources.filter fun u => Relation.ReflTransGen G v u).card

variable {G : V → V → Prop} {sources : Finset V}

theorem height_le (v : V) : height G sources v ≤ sources.card := Finset.card_filter_le _ _

/-- Along an edge of an acyclic graph the height gets smaller. -/
theorem Acyclic.height_lt (h : Acyclic G) {u v : V} (hu : u ∈ sources) (he : G u v) :
    height G sources v < height G sources u := by
  apply Finset.card_lt_card
  rw [Finset.ssubset_iff_of_subset]
  · refine ⟨u,?_,?_⟩
    · exact Finset.mem_filter.mpr ⟨hu,.refl⟩
    · intro hv
      exact h u (Relation.TransGen.head' he (Finset.mem_filter.mp hv).2)
  · intro x hx
    have hx := Finset.mem_filter.mp hx
    exact Finset.mem_filter.mpr ⟨hx.1,hx.2.head he⟩

end Height

end Program
