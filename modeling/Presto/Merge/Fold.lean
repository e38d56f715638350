import Presto.Merge

/-! `merge_tables` against what its arguments make together: one table merged into another first,
then the loop over the arguments. -/
namespace Presto
open Data Filter

section
variable {κ α : Type} [DecidableEq κ] {fields src : List (κ × Data κ α)} {k k' : κ} {v : Data κ α}

theorem field_eq_none : field fields k = none ↔ k ∉ fields.map Prod.fst := by
  simp only [field,Option.map_eq_none_iff,List.find?_eq_none,decide_eq_true_eq,List.mem_map,not_exists,
    not_and]

theorem mem_of_field (h : field fields k = some v) : (k,v) ∈ fields := by
  obtain ⟨p,hp,rfl⟩ := Option.map_eq_some_iff.mp h
  have hk : p.1 = k := by simpa using List.find?_some hp
  exact hk ▸ List.mem_of_find?_eq_some hp

theorem field_cons (p : κ × Data κ α) (k : κ) :
    field (p::fields) k = if p.1 = k then some p.2 else field fields k := by
  by_cases hp : p.1 = k <;> simp [field,hp]

theorem field_setField (fields : List (κ × Data κ α)) (k k' : κ) (v : Data κ α) :
    field (setField fields k v) k' = if k = k' then some v else field fields k' := by
  induction fields with
  | nil => simp [setField,field_cons]
  | cons p fields ih =>
    unfold setField
    split_ifs with hp hk hk
    · simp [field_cons,hk]
    · have hne : p.1 ≠ k' := fun h => hk (hp.symm.trans h)
      simp [field_cons,hk,hne]
    · subst hk
      simp [field_cons,hp,ih]
    · simp [field_cons,ih,hk]

theorem keys_setField (fields : List (κ × Data κ α)) (k : κ) (v : Data κ α) :
    (setField fields k v).map Prod.fst =
      if k ∈ fields.map Prod.fst then fields.map Prod.fst else fields.map Prod.fst++[k] := by
  induction fields with
  | nil => simp [setField]
  | cons p fields ih =>
    unfold setField
    by_cases hp : p.1 = k
    · simp [hp]
    · have hk : k ≠ p.1 := Ne.symm hp
      simp only [if_neg hp,List.map_cons,ih,List.mem_cons,hk,false_or]
      split_ifs <;> simp

theorem nodup_setField (h : (fields.map Prod.fst).Nodup) (k : κ) (v : Data κ α) :
    ((setField fields k v).map Prod.fst).Nodup := by
  rw [keys_setField]
  split_ifs with hk
  · exact h
  · exact List.nodup_append.mpr ⟨h,List.nodup_singleton k,fun a ha b hb => by
      rw [List.mem_singleton.mp hb]
      exact ne_of_mem_of_not_mem ha hk⟩

theorem setField_new (h : k ∉ fields.map Prod.fst) : setField fields k v = fields++[(k,v)] := by
  induction fields with
  | nil => rfl
  | cons p fields ih =>
    rw [List.map_cons,List.mem_cons,not_or] at h
    unfold setField
    rw [if_neg (Ne.symm h.1),ih h.2]
    rfl

theorem mem_setField {p : κ × Data κ α} (h : p ∈ setField fields k v) : p = (k,v) ∨ p ∈ fields := by
  induction fields with
  | nil => exact .inl (List.mem_singleton.mp h)
  | cons q fields ih =>
    unfold setField at h
    split_ifs at h with hq
    · rcases List.mem_cons.mp h with h | h
      · exact .inl h
      · exact .inr (List.mem_cons_of_mem _ h)
    · rcases List.mem_cons.mp h with rfl | h
      · exact .inr List.mem_cons_self
      · exact (ih h).imp id (List.mem_cons_of_mem _)

end

theorem eventually_of_succ {p : ℕ → Prop} (h : ∀ᶠ n in atTop, p (n+1)) : ∀ᶠ n in atTop, p n := by
  obtain ⟨N,hN⟩ := eventually_atTop.mp h
  refine eventually_atTop.mpr ⟨N+1,fun n hn => ?_⟩
  obtain ⟨m,rfl⟩ : ∃ m, n = m+1 := ⟨n-1,by omega⟩
  exact hN m (by omega)

theorem eventually_forall_mem {β : Type} {l : List β} {p : β → ℕ → Prop}
    (h : ∀ b ∈ l, ∀ᶠ n in atTop, p b n) : ∀ᶠ n in atTop, ∀ b ∈ l, p b n :=
  (eventually_all_finite l.finite_toSet).mpr h

section
variable {κ α : Type} {truthy : α → Bool}

theorem Shaped.plain {shape : Shape κ} {v : Data κ α} (h : Shaped shape v) : v.Plain := by
  induction h with
  | value a => exact .simple a
  | array items h => exact .array items h
  | dict at' fields hk h ih => exact .dict fields hk ih

theorem Shaped.dict_inv {at' : κ → Shape κ} {v : Data κ α} (h : Shaped (.dict at') v) :
    ∃ fields, v = .table [] fields ∧ (fields.map Prod.fst).Nodup ∧ ∀ p ∈ fields, Shaped (at' p.1) p.2 := by
  cases h with
  | dict _ fields hk h => exact ⟨fields,rfl,hk,h⟩

/-- Whether an array has items. -/
def Data.filled (v : Data κ α) : Bool := !v.items.isEmpty

theorem length_filled (args : List (Data κ α)) :
    ((args.map fun b => b.items.length).filter (· ≠ 0)).length = (args.filter Data.filled).length := by
  induction args with
  | nil => rfl
  | cons b args ih =>
    cases hb : b.items with
    | nil => simpa [Data.filled,hb] using ih
    | cons v vs => simpa [Data.filled,hb] using ih

theorem mapM_ipairs {l : List (Data κ α)} (h : ∀ b ∈ l, Shaped .array b) :
    l.mapM ipairs = some (l.map Data.items) := by
  induction l with
  | nil => rfl
  | cons b l ih =>
    have hrest := ih fun c hc => h c (List.mem_cons_of_mem _ hc)
    cases h b List.mem_cons_self with
    | array items _ => simp [ipairs,Data.items,hrest]

/-- With an empty array in front the result is as long as the longest array. -/
theorem mergeItems_length {merge : List (Data κ α) → Option (Data κ α)} {items vs rs : List (Data κ α)}
    (h : mergeItems truthy merge items vs = some rs) : rs.length = max items.length vs.length := by
  induction vs generalizing items rs with
  | nil =>
    cases items <;> simp_all [mergeItems]
  | cons v vs ih =>
    cases items with
    | nil =>
      simp only [mergeItems,Option.bind_eq_bind,Option.bind_eq_some_iff] at h
      obtain ⟨r,-,rs',hrs,h⟩ := h
      have hlen := ih hrs
      rw [← Option.some.inj h]
      simpa using hlen
    | cons o items =>
      simp only [mergeItems,Option.bind_eq_bind,Option.bind_eq_some_iff] at h
      obtain ⟨r,-,rs',hrs,h⟩ := h
      have hlen := ih hrs
      rw [← Option.some.inj h]
      simp [hlen]

theorem mergeItems_copy {merge : List (Data κ α) → Option (Data κ α)} {vs : List (Data κ α)}
    (h : ∀ v ∈ vs, merge [v] = some v) : mergeItems truthy merge [] vs = some vs := by
  induction vs with
  | nil => rfl
  | cons v vs ih =>
    simp [mergeItems,mergeValue,h v List.mem_cons_self,ih fun w hw => h w (List.mem_cons_of_mem _ hw)]

end

section
variable {κ α : Type} [DecidableEq κ] {truthy : α → Bool}

theorem mergeFields_copy {merge : List (Data κ α) → Option (Data κ α)}
    {fields src : List (κ × Data κ α)} (h : ∀ p ∈ src, merge [p.2] = some p.2)
    (hk : ((fields++src).map Prod.fst).Nodup) :
    mergeFields truthy merge fields src = some (fields++src) := by
  induction src generalizing fields with
  | nil => simp [mergeFields]
  | cons p src ih =>
    obtain ⟨k,v⟩ := p
    have hnew : k ∉ fields.map Prod.fst := by
      rw [List.map_append,List.map_cons] at hk
      exact fun hm => (List.nodup_append.mp hk).2.2 k hm k List.mem_cons_self rfl
    have hcopy : merge [v] = some v := h (k,v) List.mem_cons_self
    simp only [mergeFields,field_eq_none.mpr hnew,mergeValue,hcopy,Option.bind_eq_bind,
      Option.bind_some,setField_new hnew]
    rw [ih (fun q hq => h q (List.mem_cons_of_mem _ hq)) (by simpa using hk)]
    simp

/-- One argument is copied, and so is a table that is merged into an empty one. -/
theorem copies {v : Data κ α} (h : v.Plain) :
    (∀ᶠ n in atTop, mergeTables truthy n [v] = some v) ∧
      ∀ items fields, v = .table items fields →
        ∀ᶠ n in atTop, mergeInto truthy (mergeTables truthy n) (.table [] []) v = some v := by
  induction h with
  | simple a =>
    exact ⟨eventually_of_succ (Eventually.of_forall fun _ => rfl),nofun⟩
  | array items h ih =>
    have hinto : ∀ᶠ n in atTop, mergeInto truthy (mergeTables truthy n) (.table [] [])
        (.table items []) = some (.table items ([] : List (κ × Data κ α))) := by
      filter_upwards [eventually_forall_mem fun v hv => (ih v hv).1] with n hn
      simp [mergeInto,mergeItems_copy hn,mergeFields]
    refine ⟨eventually_of_succ ?_,fun _ _ _ => hinto⟩
    cases items with
    | nil =>
      filter_upwards [hinto] with n hn
      simp [mergeTables,hn]
    | cons v items => exact Eventually.of_forall fun n => by simp [mergeTables,ipairs]
  | dict fields hk h ih =>
    have hinto : ∀ᶠ n in atTop, mergeInto truthy (mergeTables truthy n) (.table [] [])
        (.table [] fields) = some (.table [] fields) := by
      filter_upwards [eventually_forall_mem fun p hp => (ih p hp).1] with n hn
      have hcopy : mergeFields truthy (mergeTables truthy n) [] fields = some ([]++fields) :=
        mergeFields_copy hn hk
      simp [mergeInto,mergeItems,hcopy]
    refine ⟨eventually_of_succ ?_,fun _ _ _ => hinto⟩
    filter_upwards [hinto] with n hn
    simp [mergeTables,hn]

/-- What is at a key is what the values at that key make together. -/
def JoinedAt (shape : Shape κ) (l : List (Data κ α)) (old : Option (Data κ α)) : Prop :=
  old.elim (l = []) fun v => l ≠ [] ∧ Joined shape l v

theorem joined_single {shape : Shape κ} {v : Data κ α} (h : Shaped shape v) : Joined shape [v] v := by
  induction h with
  | value a => rfl
  | array items h => simp [Joined,Data.items]
  | dict at' fields hk h ih =>
    refine ⟨⟨fields,rfl⟩,fun k => ?_⟩
    cases hv : (Data.table [] fields).at? k with
    | none => simp [hv]
    | some w =>
      have hmem : (k,w) ∈ fields := mem_of_field hv
      simpa [hv] using ih (k,w) hmem

/-- The table that two tables of one shape are merged into. -/
def Merges (truthy : α → Bool) (shape : Shape κ) (l : List (Data κ α)) (o w : Data κ α) : Prop :=
  ∃ r, (∀ᶠ n in atTop, mergeTables truthy n [o,w] = some r) ∧ Joined shape (l++[w]) r ∧ Shaped shape r

/-- One key: a new value is copied, one over an old value is merged with it. -/
theorem mergeValue_joined {shape : Shape κ} {l : List (Data κ α)} {old : Option (Data κ α)}
    {w : Data κ α} (ih : ∀ o, l ≠ [] → Joined shape l o → Shaped shape o → Merges truthy shape l o w)
    (hold : JoinedAt shape l old) (hfits : ∀ o, old = some o → Shaped shape o) (hw : Shaped shape w) :
    ∃ r, (∀ᶠ n in atTop, mergeValue truthy (mergeTables truthy n) old w = some r) ∧
      JoinedAt shape (l++[w]) (some r) ∧ Shaped shape r := by
  have hcopy : ∀ᶠ n in atTop, mergeTables truthy n [w] = some w := (copies hw.plain).1
  cases old with
  | none =>
    obtain rfl : l = [] := hold
    exact ⟨w,hcopy,⟨by simp,joined_single hw⟩,hw⟩
  | some o =>
    obtain ⟨hl,hjoined⟩ := hold
    have ho := hfits o rfl
    by_cases htrue : o.Truthy truthy = true
    · obtain ⟨r,hr,hj,hf⟩ := ih o hl hjoined ho
      refine ⟨r,?_,⟨by simp,hj⟩,hf⟩
      filter_upwards [hr] with n hn
      simp [mergeValue,htrue,hn]
    · cases ho with
      | value a =>
        refine ⟨w,?_,⟨by simp,by simp [Joined]⟩,hw⟩
        filter_upwards [hcopy] with n hn
        simp [mergeValue,htrue,hn]
      | array items h => exact absurd rfl htrue
      | dict at' fields hk h => exact absurd rfl htrue

/-- The loop over the keys of a dictionary. -/
theorem mergeFields_joined {at' : κ → Shape κ} {L : κ → List (Data κ α)}
    {fields src : List (κ × Data κ α)}
    (ih : ∀ p ∈ src, ∀ o, L p.1 ≠ [] → Joined (at' p.1) (L p.1) o → Shaped (at' p.1) o →
      Merges truthy (at' p.1) (L p.1) o p.2)
    (hk : (fields.map Prod.fst).Nodup) (hfits : ∀ p ∈ fields, Shaped (at' p.1) p.2)
    (hks : (src.map Prod.fst).Nodup) (hsrc : ∀ p ∈ src, Shaped (at' p.1) p.2)
    (hj : ∀ k, JoinedAt (at' k) (L k) (field fields k)) :
    ∃ rs, (∀ᶠ n in atTop, mergeFields truthy (mergeTables truthy n) fields src = some rs) ∧
      (rs.map Prod.fst).Nodup ∧ (∀ p ∈ rs, Shaped (at' p.1) p.2) ∧
      ∀ k, JoinedAt (at' k) (L k++(field src k).toList) (field rs k) := by
  induction src generalizing fields L with
  | nil => exact ⟨fields,Eventually.of_forall fun _ => rfl,hk,hfits,by simpa [field] using hj⟩
  | cons p src ihs =>
    obtain ⟨k,v⟩ := p
    obtain ⟨r,hr,hrj,hrf⟩ := mergeValue_joined (ih (k,v) List.mem_cons_self) (hj k)
      (fun o ho => hfits (k,o) (mem_of_field ho)) (hsrc (k,v) List.mem_cons_self)
    obtain ⟨hnew,hks⟩ := List.nodup_cons.mp hks
    have hkeep : ∀ q ∈ src, q.1 ≠ k := fun q hq h =>
      hnew (List.mem_map.mpr ⟨q,hq,h⟩)
    obtain ⟨rs,hrs,hrk,hrfits,hrjoined⟩ := ihs
      (L := Function.update L k (L k++[v]))
      (fun q hq => by
        rw [Function.update_of_ne (hkeep q hq)]
        exact ih q (List.mem_cons_of_mem _ hq))
      (nodup_setField hk k r)
      (fun q hq => by
        rcases mem_setField hq with rfl | hq
        · exact hrf
        · exact hfits q hq)
      hks (fun q hq => hsrc q (List.mem_cons_of_mem _ hq))
      (fun k' => by
        rw [field_setField]
        by_cases hkk : k = k'
        · subst hkk
          rw [if_pos rfl,Function.update_self]
          exact hrj
        · rw [if_neg hkk,Function.update_of_ne (Ne.symm hkk)]
          exact hj k')
    refine ⟨rs,?_,hrk,hrfits,fun k' => ?_⟩
    · filter_upwards [hr,hrs] with n hn hns
      simp [mergeFields,hn,hns]
    · have hjk := hrjoined k'
      rw [field_cons]
      by_cases hkk : k = k'
      · subst hkk
        rw [Function.update_self,field_eq_none.mpr hnew] at hjk
        simpa using hjk
      · rw [Function.update_of_ne (Ne.symm hkk)] at hjk
        rwa [if_neg hkk]

/-- A dictionary is merged into what other ones make together. -/
theorem mergeInto_joined {at' : κ → Shape κ} {l : List (Data κ α)} {t b : Data κ α}
    (ih : ∀ k (l : List (Data κ α)) o w, l ≠ [] → Joined (at' k) l o → Shaped (at' k) o →
      Shaped (at' k) w → Merges truthy (at' k) l o w)
    (ht : Joined (.dict at') l t) (hft : Shaped (.dict at') t) (hb : Shaped (.dict at') b) :
    ∃ r, (∀ᶠ n in atTop, mergeInto truthy (mergeTables truthy n) t b = some r) ∧
      Joined (.dict at') (l++[b]) r ∧ Shaped (.dict at') r := by
  obtain ⟨fields,rfl,hk,hfits⟩ := hft.dict_inv
  obtain ⟨src,rfl,hks,hsrc⟩ := hb.dict_inv
  obtain ⟨rs,hrs,hrk,hrfits,hrjoined⟩ := mergeFields_joined
    (fun p hp o hl hj ho => ih p.1 _ o p.2 hl hj ho (hsrc p hp)) hk hfits hks hsrc ht.2
  refine ⟨.table [] rs,?_,⟨⟨rs,rfl⟩,fun k => ?_⟩,.dict at' rs hrk hrfits⟩
  · filter_upwards [hrs] with n hn
    simp [mergeInto,mergeItems,hn]
  · have hlast : (l++[Data.table [] src]).filterMap (Data.at? k) =
        l.filterMap (Data.at? k)++(field src k).toList := by
      rw [List.filterMap_append]
      cases hv : field src k <;> simp [Data.at?,hv]
    rw [hlast]
    exact hrjoined k

/-- Two tables are merged the same way when the first one is copied before. -/
theorem mergeTables_pair {t b r : Data κ α} {fields : List (κ × Data κ α)} (ht : t = .table [] fields)
    (hp : t.Plain)
    (hr : ∀ᶠ n in atTop, mergeInto truthy (mergeTables truthy n) t b = some r) :
    ∀ᶠ n in atTop, mergeTables truthy n [t,b] = some r := by
  have hcopy : ∀ᶠ n in atTop, mergeInto truthy (mergeTables truthy n) (.table [] []) t = some t :=
    (copies hp).2 [] fields ht
  apply eventually_of_succ
  filter_upwards [hcopy,hr] with n hn hrn
  subst ht
  simp [mergeTables,hn,hrn]

/-- Two values are merged into what they make together; the induction is on the shape. -/
theorem merges (shape : Shape κ) : ∀ (l : List (Data κ α)) (o w : Data κ α), l ≠ [] →
    Joined shape l o → Shaped shape o → Shaped shape w → Merges truthy shape l o w := by
  induction shape with
  | value =>
    intro l o w _ _ ho hw
    cases ho with
    | value a => exact ⟨w,eventually_of_succ (Eventually.of_forall fun n => by simp [mergeTables]),
        by simp [Joined],hw⟩
  | array =>
    intro l o w _ hj ho hw
    obtain rfl : o = .table (l.flatMap Data.items) [] := hj
    cases hw with
    | array ys hy =>
      have hjoined : Joined .array (l++[.table ys []]) (.table (l.flatMap Data.items++ys)
          ([] : List (κ × Data κ α))) := by
        simp [Joined,Data.items]
      have hfits : Shaped .array (Data.table (l.flatMap Data.items++ys) ([] : List (κ × Data κ α))) := by
        cases ho with
        | array _ hx => exact .array _ fun v hv => (List.mem_append.mp hv).elim (hx v) (hy v)
      refine ⟨_,?_,hjoined,hfits⟩
      cases hx : l.flatMap Data.items with
      | nil => exact mergeTables_pair rfl (.array [] nofun) ((copies (.array ys hy)).2 ys [] rfl)
      | cons x xs =>
        exact eventually_of_succ (Eventually.of_forall fun n => by simp [mergeTables,ipairs])
  | dict at' ih =>
    intro l o w _ hj ho hw
    obtain ⟨r,hr,hrj,hrf⟩ := mergeInto_joined ih hj ho hw
    obtain ⟨fields,hfields,-⟩ := ho.dict_inv
    exact ⟨r,mergeTables_pair hfields ho.plain hr,hrj,hrf⟩

/-! ### The loop over the arguments -/

/-- Merging two at a time makes what all make together. -/
theorem foldlM_joined {shape : Shape κ} (args : List (Data κ α)) {l : List (Data κ α)} {t : Data κ α}
    (hl : l ≠ []) (hj : Joined shape l t) (ht : Shaped shape t) (h : ∀ b ∈ args, Shaped shape b) :
    ∃ r, (∀ᶠ n in atTop, args.foldlM (fun t b => mergeTables truthy n [t,b]) t = some r) ∧
      Joined shape (l++args) r := by
  induction args generalizing l t with
  | nil => exact ⟨t,Eventually.of_forall fun _ => rfl,by simpa using hj⟩
  | cons b args ih =>
    obtain ⟨r,hr,hrj,hrf⟩ : Merges truthy shape l t b :=
      merges shape l t b hl hj ht (h b List.mem_cons_self)
    obtain ⟨s,hs,hsj⟩ := ih (by simp) hrj hrf fun c hc => h c (List.mem_cons_of_mem _ hc)
    refine ⟨s,?_,by simpa using hsj⟩
    filter_upwards [hr,hs] with n hn hns
    simp [hn,hns]

/-- Dictionaries: the loop over all arguments does the same as merging two at a time. -/
theorem foldlM_dict {at' : κ → Shape κ} (args : List (Data κ α)) {l : List (Data κ α)} {t : Data κ α}
    (hl : l ≠ []) (hj : Joined (.dict at') l t) (ht : Shaped (.dict at') t)
    (h : ∀ b ∈ args, Shaped (.dict at') b) :
    ∃ r, (∀ᶠ n in atTop, args.foldlM (mergeInto truthy (mergeTables truthy n)) t = some r) ∧
      (∀ᶠ n in atTop, args.foldlM (fun t b => mergeTables truthy n [t,b]) t = some r) ∧
      Joined (.dict at') (l++args) r := by
  induction args generalizing l t with
  | nil =>
    exact ⟨t,Eventually.of_forall fun _ => rfl,Eventually.of_forall fun _ => rfl,by simpa using hj⟩
  | cons b args ih =>
    obtain ⟨fields,hfields,-⟩ := ht.dict_inv
    obtain ⟨r,hr,hrj,hrf⟩ : ∃ r,
        (∀ᶠ n in atTop, mergeInto truthy (mergeTables truthy n) t b = some r) ∧
          Joined (.dict at') (l++[b]) r ∧ Shaped (.dict at') r :=
      mergeInto_joined (fun k => merges (at' k)) hj ht (h b List.mem_cons_self)
    have hpair := mergeTables_pair hfields ht.plain hr
    obtain ⟨s,hs,hs',hsj⟩ := ih (by simp) hrj hrf fun c hc => h c (List.mem_cons_of_mem _ hc)
    refine ⟨s,?_,?_,by simpa using hsj⟩
    · filter_upwards [hr,hs] with n hn hns
      simp [hn,hns]
    · filter_upwards [hpair,hs'] with n hn hns
      simp [hn,hns]

/-- Arrays of which at most one has items may be merged key by key. -/
theorem foldlM_sparse (args : List (Data κ α)) (h : ∀ b ∈ args, Shaped .array b) (xs : List (Data κ α))
    (hone : xs = [] → (args.filter Data.filled).length ≤ 1)
    (hrest : xs ≠ [] → args.filter Data.filled = []) :
    ∀ᶠ n in atTop, args.foldlM (mergeInto truthy (mergeTables truthy n)) (.table xs []) =
      some (.table (xs++args.flatMap Data.items) []) := by
  induction args generalizing xs with
  | nil => exact Eventually.of_forall fun n => by simp
  | cons b args ih =>
    have hargs : ∀ c ∈ args, Shaped .array c := fun c hc => h c (List.mem_cons_of_mem _ hc)
    cases h b List.mem_cons_self with
    | array ys hy =>
      cases ys with
      | nil =>
        filter_upwards [ih hargs xs (by simpa [Data.filled,Data.items] using hone)
          (by simpa [Data.filled,Data.items] using hrest)] with n hn
        simp [mergeInto,mergeItems,mergeFields,hn,Data.items]
      | cons y ys =>
        have hxs : xs = [] := by
          by_contra hne
          simp [Data.filled,Data.items] at hrest
          exact hne hrest
        subst hxs
        have hnone : args.filter Data.filled = [] := by
          simpa [Data.filled,Data.items] using hone rfl
        have hcopy : ∀ᶠ n in atTop, mergeInto truthy (mergeTables truthy n) (.table [] [])
            (.table (y::ys) []) = some (.table (y::ys) ([] : List (κ × Data κ α))) :=
          (copies (.array (y::ys) hy)).2 (y::ys) [] rfl
        filter_upwards [hcopy,ih hargs (y::ys) nofun fun _ => hnone] with n hn hns
        simp [hn,hns,Data.items]

theorem foldlM_length {merge : List (Data κ α) → Option (Data κ α)} (args : List (Data κ α))
    {t r : Data κ α} (h : args.foldlM (mergeInto truthy merge) t = some r) :
    r.items.length = (args.map fun b => b.items.length).foldl max t.items.length := by
  induction args generalizing t with
  | nil => rw [Option.some.inj h]; rfl
  | cons b args ih =>
    simp only [List.foldlM_cons,Option.bind_eq_bind,Option.bind_eq_some_iff] at h
    obtain ⟨u,hu,hr⟩ := h
    rw [ih hr,List.map_cons,List.foldl_cons]
    congr 1
    cases b with
    | simple a => cases hu
    | table vs src =>
      cases t with
      | simple a => cases hu
      | table items fields =>
        simp only [mergeInto,Option.bind_eq_bind,Option.bind_eq_some_iff] at hu
        obtain ⟨is,his,fs,-,hu⟩ := hu
        rw [← Option.some.inj hu]
        exact mergeItems_length his

theorem foldl_max_le (l : List ℕ) (m : ℕ) : l.foldl max m ≤ m+l.sum := by
  induction l generalizing m with
  | nil => simp
  | cons a l ih =>
    have hrest := ih (max m a)
    simp only [List.foldl_cons,List.sum_cons]
    omega

theorem sum_eq_max {l : List ℕ} (m : ℕ) (h : m+l.sum = l.foldl max m) :
    (m = 0 → (l.filter (· ≠ 0)).length ≤ 1) ∧ (m ≠ 0 → l.filter (· ≠ 0) = []) := by
  induction l generalizing m with
  | nil => simp
  | cons a l ih =>
    have hle := foldl_max_le l (max m a)
    rw [List.sum_cons,List.foldl_cons] at h
    by_cases ha : a = 0
    · subst ha
      rw [Nat.max_zero] at h
      simpa using ih m (by omega)
    · have hm : m = 0 := by omega
      subst hm
      rw [Nat.zero_max] at h
      have hnone := (ih a (by omega)).2 ha
      simp only [ne_eq,decide_not] at hnone
      simp [ha,hnone]

/-- An empty array in front of arrays that are joined: at most one of them has items. -/
theorem filled_of_returns {a r : Data κ α} {args : List (Data κ α)} (ha : Shaped .array a)
    (hfilled : ¬a.filled = true) (hj : Joined .array (a::args) r)
    (hr : ∀ᶠ n in atTop, mergeTables truthy n (a::args) = some r) :
    (args.filter Data.filled).length ≤ 1 := by
  obtain ⟨n,hn,hpos⟩ := (hr.and (eventually_ge_atTop 1)).exists
  obtain ⟨n,rfl⟩ : ∃ m, n = m+1 := ⟨n-1,by omega⟩
  cases ha with
  | array items _ =>
    obtain rfl : items = [] := by simpa [Data.filled,Data.items] using hfilled
    have hlen := foldlM_length (t := .table [] []) (.table [] []::args) hn
    obtain rfl : r = .table (args.flatMap Data.items) [] := hj
    rw [← length_filled]
    refine (sum_eq_max 0 ?_).1 rfl
    have hsum : (args.flatMap Data.items).length = (args.map fun b => b.items.length).sum :=
      List.length_flatMap
    rw [Nat.zero_add,← hsum]
    exact hlen

/-- Arrays are joined if the first one has items, or at most one other. -/
theorem mergeTables_array {items : List (Data κ α)} {args : List (Data κ α)} {r : Data κ α}
    (h : ∀ b ∈ Data.table items []::args, Shaped .array b)
    (hcond : (Data.table items ([] : List (κ × Data κ α))).filled = true ∨
      (args.filter Data.filled).length ≤ 1)
    (hj : Joined .array (.table items []::args) r) :
    ∀ᶠ n in atTop, mergeTables truthy n (.table items []::args) = some r := by
  obtain rfl : r = .table (items++args.flatMap Data.items) [] := hj
  apply eventually_of_succ
  cases items with
  | nil =>
    have hone : (args.filter Data.filled).length ≤ 1 :=
      hcond.resolve_left (by simp [Data.filled,Data.items])
    have hrun : ∀ᶠ n in atTop, args.foldlM (mergeInto truthy (mergeTables truthy n)) (.table [] []) =
        some (.table ([]++args.flatMap Data.items) []) :=
      foldlM_sparse args (fun b hb => h b (List.mem_cons_of_mem _ hb)) [] (fun _ => hone) (by simp)
    filter_upwards [hrun] with n hn
    simpa [mergeTables,mergeInto,mergeItems,mergeFields] using hn
  | cons v items =>
    refine Eventually.of_forall fun n => ?_
    have hl := mapM_ipairs h
    simp only [mergeTables,hl,Option.bind_eq_bind,Option.bind_some]
    simp [Data.items,List.flatMap_def]

/-- `merge_tables` joins the arrays and keeps the last simple values, like merging two at a time
from the left, exactly if it is not given an empty array in front of several ones with items. -/
theorem mergesAll_iff (truthy : α → Bool) (shape : Shape κ) (a : Data κ α) (args : List (Data κ α))
    (h : ∀ b ∈ a::args, Shaped shape b) :
    MergesAll truthy shape a args ↔
      (shape = .array → a.filled = true ∨ (args.filter Data.filled).length ≤ 1) := by
  obtain ⟨ha,hargs⟩ := List.forall_mem_cons.mp h
  constructor
  · rintro ⟨r,hj,hr,-⟩ rfl
    by_contra hnot
    rw [not_or] at hnot
    exact hnot.2 (filled_of_returns ha hnot.1 hj hr)
  · intro hcond
    have hone : [a] ≠ [] := by simp
    have hplain := ha.plain
    have hsingle := joined_single ha
    have hfits := ha
    have hpair : ∃ r, (∀ᶠ n in atTop, args.foldlM (fun t b => mergeTables truthy n [t,b]) a = some r) ∧
        Joined shape (a::args) r := foldlM_joined args hone hsingle ha hargs
    cases ha with
    | value x =>
      obtain ⟨r,hr,hj⟩ := hpair
      exact ⟨r,hj,eventually_of_succ (Eventually.of_forall fun n => hj),hr⟩
    | array items hi =>
      obtain ⟨r,hr,hj⟩ := hpair
      exact ⟨r,hj,mergeTables_array h (hcond rfl) hj,hr⟩
    | dict at' fields hk hf =>
      obtain ⟨r,hr,hr',hj⟩ : ∃ r,
          (∀ᶠ n in atTop, args.foldlM (mergeInto truthy (mergeTables truthy n)) (.table [] fields) =
            some r) ∧
          (∀ᶠ n in atTop, args.foldlM (fun t b => mergeTables truthy n [t,b]) (.table [] fields) =
            some r) ∧ Joined (.dict at') ([.table [] fields]++args) r :=
        foldlM_dict args hone hsingle hfits hargs
      have hcopy : ∀ᶠ n in atTop, mergeInto truthy (mergeTables truthy n) (.table [] [])
          (.table [] fields) = some (.table [] fields) := (copies hplain).2 [] fields rfl
      refine ⟨r,hj,eventually_of_succ ?_,hr'⟩
      filter_upwards [hcopy,hr] with n hn hrn
      simp [mergeTables,hn,hrn]

end

/-- An array of numbers. -/
def numbers (l : List ℕ) : Data String ℕ := .table (l.map .simple) []

theorem shaped_numbers (l : List ℕ) : Shaped .array (numbers l) := by
  refine .array _ fun v hv => ?_
  obtain ⟨a,-,rfl⟩ := List.mem_map.mp hv
  exact .simple a

theorem mergesAll_numbers :
    MergesAll (fun _ => true) .array (numbers [1]) [numbers [2,3],numbers [],numbers [4]] :=
  (mergesAll_iff _ _ _ _ (by simp [shaped_numbers])).mpr fun _ => .inl rfl

/-- Behind an empty array 3 overwrites 1. -/
theorem empty_first_overwrites :
    ¬MergesAll (fun _ => true) .array (numbers []) [numbers [1,2],numbers [3]] := by
  rintro ⟨r,hj,hr,-⟩
  exact absurd (filled_of_returns (shaped_numbers []) (by decide) hj hr) (by decide)

end Presto
