import Presto.Engine.Statuses

/-! Targets that are up to date before the build begins. In a graph of file and phony targets whose
commands change no other files, they are those for which nothing is ever started. -/
namespace Presto
open Program Traced

/-- What `make.file.time` says of a path, with `0` for everything that is no file. -/
def FileSystem.stamp (fs : FileSystem) (path : String) : ℤ :=
  if fs.exists path then (fs.time path).getD 0 else 0

theorem FileSystem.exists_congr {fs fs' : FileSystem} {p : String} (h : fs p = fs' p) :
    fs.exists p = fs'.exists p := by
  unfold FileSystem.exists
  rw [h]

theorem FileSystem.stamp_congr {fs fs' : FileSystem} {p : String} (h : fs p = fs' p) :
    fs.stamp p = fs'.stamp p := by
  unfold FileSystem.stamp FileSystem.exists FileSystem.time
  rw [h]

/-- The fields that `__target.mt.__index` fills in, and how. -/
def cachedFields : List (String × String) := [("exists","get_exists"),("timestamp","get_timestamp")]

/-- What the field `key` of a file target is filled in with. -/
def cachedValue (key : String) (fs : FileSystem) (path : String) : Value :=
  if key = "exists" then .bool (fs.exists path) else .num (fs.stamp path)

theorem cachedValue_congr {key p : String} {fs fs' : FileSystem} (h : fs p = fs' p) :
    cachedValue key fs p = cachedValue key fs' p := by
  unfold cachedValue
  rw [FileSystem.exists_congr h,FileSystem.stamp_congr h]

/-- What the field `key` of a phony target is. -/
def phonyValue (key : String) : Value := if key = "exists" then .bool false else .num 0

theorem cachedFields_cases {key getter : String} (h : (key,getter) ∈ cachedFields) :
    key = "exists" ∧ getter = "get_exists" ∨ key = "timestamp" ∧ getter = "get_timestamp" := by
  simpa [cachedFields] using h

theorem cachedFields_watched {key getter : String} (h : (key,getter) ∈ cachedFields) :
    key ∈ Core.watched ∧ getter ∈ Core.watched := by
  rcases cachedFields_cases h with ⟨rfl,rfl⟩ | ⟨rfl,rfl⟩ <;> decide

/-- The method of `__target` answers from the disk. -/
theorem callGetter_disk {E : Env} {c : Core} {o : ObjId} {key getter path : String}
    (hk : (key,getter) ∈ cachedFields) (hnil : ∀ p, c.rawget p getter = .nil)
    (hreg : c.registry getter = protectedMember getter) (ht : (c.heap o).isTarget)
    (hname : c.rawget o "name" = .str path) :
    callGetter E o getter c = (.ret (cachedValue key c.files path),c) := by
  have hattr : c.attr o getter = protectedMember getter := by
    have hnone : c.holder o getter = none := List.find?_eq_none.mpr fun q _ => by simp [hnil q]
    simp only [Core.attr,hnone]
    rw [if_pos ht,hreg]
  have hown : c.attr o "name" = .str path := by
    rw [Core.attr_eq_rawget (by simp [hname]),hname]
  rcases cachedFields_cases hk with ⟨rfl,rfl⟩ | ⟨rfl,rfl⟩
  · have hm : c.attr o "get_exists" = .fn (.method .getExists) := hattr
    unfold callGetter getExists
    rw [run_bind_gets]
    simp only [id,hm]
    rw [run_bind_gets]
    simp only [id,hown,checkPath]
    rfl
  · have hm : c.attr o "get_timestamp" = .fn (.method .getTimestamp) := hattr
    unfold callGetter getTimestamp
    rw [run_bind_gets]
    simp only [id,hm]
    rw [run_bind_gets]
    simp only [id,hown,checkPath]
    rfl

namespace Core
variable (c : Core)

def IsPhony (o : ObjId) : Prop := phonyClass ∈ (c.heap o).chain

/-- A graph of file and phony targets as mkinit.lua makes them, in which none is registered under
the name `deps_newer`. -/
structure FileGraph : Prop extends c.Regular where
  newer : c.registry "deps_newer" = .nil
  chain : ∀ m o, c.registry m = .obj o → (c.heap o).isTarget →
    (c.heap o).chain = [] ∨ (c.heap o).chain = [phonyClass]
  plain : ∀ m o, c.registry m = .obj o → (c.heap o).isTarget → ∀ x ∈ cachedFields, c.rawget o x.1 = .nil
  getters : ∀ x ∈ cachedFields, ∀ o, c.rawget o x.2 = .nil
  phony : ∀ x ∈ cachedFields, c.rawget phonyClass x.1 = phonyValue x.1

/-- The file of the target is there. -/
def Existing (o : ObjId) : Prop := ¬c.IsPhony o ∧ ∃ k, c.rawget o "name" = .str k ∧ c.files.exists k

/-- The timestamp of the target is `t`. -/
def Dated (o : ObjId) (t : ℤ) : Prop :=
  c.IsPhony o ∧ t = 0 ∨ ¬c.IsPhony o ∧ ∃ k, c.rawget o "name" = .str k ∧ t = c.files.stamp k

variable {c} in
theorem Dated.unique {o : ObjId} {s t : ℤ} (hs : c.Dated o s) (ht : c.Dated o t) : s = t := by
  rcases hs with ⟨hp,rfl⟩ | ⟨hp,k,hk,rfl⟩ <;> rcases ht with ⟨hp',rfl⟩ | ⟨hp',k',hk',rfl⟩
  · rfl
  · exact absurd hp hp'
  · exact absurd hp' hp
  · rw [Value.str.inj (hk.symm.trans hk')]

/-- The dependency `n` of `o` is no newer than `o`. -/
def NotOlder (o : ObjId) (n : String) : Prop :=
  ∀ s, c.Dated o s → (∀ p t, c.registry n = .obj p → c.Dated p t → t ≤ s) ∧
    (c.registry n = .nil → c.files.stamp n ≤ s)

/-- The target and the targets that it leads to are up to date. With `-B` those are that have no
command. -/
inductive Fresh (always : Bool) : ObjId → Prop
  | mk {o : ObjId} : (always = true → (c.attr o "command").truthy = false) →
    (always = false → c.Existing o ∧ ∀ n ∈ c.deps o, c.NotOlder o n) →
    (always = false → ∀ n ∈ c.deps o, ∀ p, c.registry n = .obj p → (c.heap p).isTarget → Fresh always p) →
    Fresh always o

end Core

/-- The command of a target changes no file but that of the target. -/
def Core.Confined (E : Env) (c : Core) : Prop :=
  ∀ m o f k, c.registry m = .obj o → (c.heap o).isTarget → c.attr o "command" = .fn f →
    c.rawget o "name" = .str k → ∀ i n c' s c'', resumeCommand E f (.str k) i n c' = (.ret s,c'') →
      ∀ p, p ≠ k → c''.files p = c'.files p

/-- The files that the commands can lead to. -/
inductive Core.Produces (E : Env) (c : Core) : FileSystem → Prop
  | first : Produces E c c.files
  | resume {m : String} {o : ObjId} {f : Fn} {k : String} {i n : ℕ} {c' c'' : Core} {s : Signal} :
    Produces E c c'.files → c.registry m = .obj o → (c.heap o).isTarget → c.attr o "command" = .fn f →
    c.rawget o "name" = .str k → resumeCommand E f (.str k) i n c' = (.ret s,c'') → Produces E c c''.files

namespace Build
variable {E : Env} {B : Build E} {w w' : World} {o : ObjId} {m k key getter : String}

/-- The targets that have not been started are what they were in the beginning. -/
structure Pristine (B : Build E) (w : World) : Prop where
  files : ∀ p, (∀ m q, B.Target m q → Touched w q → B.origin.rawget q "name" ≠ .str p) →
    w.now.files p = B.origin.files p
  caches : ∀ m q k, B.Leads w m q → ¬Touched w q → ¬B.origin.IsPhony q → w.now.rawget q "name" = .str k →
    ∀ x ∈ cachedFields, w.now.rawget q x.1 = .nil ∨ w.now.rawget q x.1 = cachedValue x.1 B.origin.files k
  getters : ∀ x ∈ cachedFields, ∀ q, w.now.rawget q x.2 = .nil
  own : ∀ m q, B.Target m q → B.origin.IsPhony q → ∀ x ∈ cachedFields, w.now.rawget q x.1 = .nil
  phony : ∀ x ∈ cachedFields, w.now.rawget phonyClass x.1 = phonyValue x.1
  reached : B.origin.Produces E w.now.files

theorem Target.name (hr : B.Rooted) (hb : B.Books w) (ht : B.Target m o) : ∃ k,
    w.now.rawget o "name" = .str k ∧ B.origin.rawget o "name" = .str k ∧ Finds B.origin.registry k o := by
  obtain ⟨k,hk,hf⟩ := B.ready.named m o ht.1 ht.2
  refine ⟨k,?_,hk,hf⟩
  rw [(hb.stays.kept o ht.lt "name" (by decide)).resolve_right fun hn => hn.1 hr.method.1]
  exact hk

theorem Leads.name (hr : B.Rooted) (hb : B.Books w) (hl : B.Leads w m o) :
    ∃ k, w.now.rawget o "name" = .str k := by
  rcases hl with ht | ⟨_,_,_,hn⟩
  · obtain ⟨k,hk,_⟩ := Target.name hr hb ht
    exact ⟨k,hk⟩
  · exact ⟨m,hn⟩

/-- What is read under `key` of a target that has not been started. -/
structure Told (B : Build E) (w : World) (o : ObjId) (key : String) (v : Value) : Prop where
  phony : B.origin.IsPhony o → v = phonyValue key
  file : ¬B.origin.IsPhony o → ∀ k, w.now.rawget o "name" = .str k → v = cachedValue key B.origin.files k

/-- The file of a target that has not been started is what it was. -/
theorem Pristine.same (h : B.Pristine w) (hr : B.Rooted) (hb : B.Books w) (hl : B.Leads w m o)
    (hu : ¬Touched w o) (hname : w.now.rawget o "name" = .str k) : w.now.files k = B.origin.files k := by
  apply h.files k
  intro n q hq htouch hqk
  obtain ⟨k',_,hk',hf⟩ := Target.name hr hb hq
  obtain rfl := Value.str.inj (hk'.symm.trans hqk)
  rcases hl with ht | ⟨hnil,_,_,hn⟩
  · obtain ⟨k'',hk'',_,hf'⟩ := Target.name hr hb ht
    obtain rfl := Value.str.inj (hk''.symm.trans hname)
    rw [hf'.unique hf] at hu
    exact hu htouch
  · obtain rfl := Value.str.inj (hn.symm.trans hname)
    rw [hf.bound] at hnil
    cases hnil

/-- The file of a name that is not registered. -/
theorem Pristine.source (h : B.Pristine w) (hnil : B.origin.registry k = .nil) :
    w.now.files k = B.origin.files k := by
  apply h.files k
  intro n q hq _ hqk
  obtain ⟨j,hj,hf⟩ := B.ready.named n q hq.1 hq.2
  obtain rfl := Value.str.inj (hj.symm.trans hqk)
  rw [hf.bound] at hnil
  cases hnil

/-- The tables behind a target. -/
theorem knows_chain (hg : B.origin.FileGraph) (hb : B.Books w) (hk : B.Knows w o) :
    (w.now.heap o).isTarget ∧ ((w.now.heap o).chain = [] ∧ ¬B.origin.IsPhony o ∨
      (w.now.heap o).chain = [phonyClass] ∧ B.origin.IsPhony o ∧ ∃ m, B.Target m o) := by
  rcases hk with ⟨m,hm,ht⟩ | ⟨hle,hlt⟩
  · have ho := B.ready.sound.registered hm
    refine ⟨by rw [hb.stays.isTarget o ho]; exact ht,?_⟩
    rw [hb.stays.chain o ho]
    rcases hg.chain m o hm ht with hc | hc
    · exact .inl ⟨hc,by simp [Core.IsPhony,hc]⟩
    · exact .inr ⟨hc,by simp [Core.IsPhony,hc],m,hm,ht⟩
  · have hblank := hb.stays.later o hle hlt
    exact ⟨hblank.isTarget,.inl ⟨hblank.chain,by simp [Core.IsPhony,B.ready.sound.fresh o hle]⟩⟩

theorem ne_phonyClass (hg : B.origin.FileGraph) (hk : B.Knows w o) : o ≠ phonyClass := by
  rintro rfl
  rcases hk with ⟨m,hm,ht⟩ | ⟨hle,_⟩
  · have hnil := hg.plain m phonyClass hm ht ("exists","get_exists") (by decide)
    rw [hg.phony ("exists","get_exists") (by decide)] at hnil
    cases hnil
  · exact absurd (Nat.lt_of_lt_of_le (by decide) B.ready.sound.classes) (not_lt.mpr hle)

theorem leads_rawset {v : Value} (hkey : key ≠ "name") {q p : ObjId} {n : String} :
    B.Leads { w with now := w.now.rawset p key v } n q ↔ B.Leads w n q := by
  unfold Leads
  rw [Core.rawget_rawset,if_neg (fun h => hkey h.2.symm)]
  rfl

/-- A field is filled in. -/
theorem Pristine.cache (h : B.Pristine w) (hg : B.origin.FileGraph) (hk : B.Knows w o)
    (hx : (key,getter) ∈ cachedFields) (hno : ¬B.origin.IsPhony o) {v : Value}
    (hv : ∀ m k, B.Leads w m o → ¬Touched w o → w.now.rawget o "name" = .str k →
      v = cachedValue key B.origin.files k) :
    B.Pristine { w with now := w.now.rawset o key v } := by
  have hkey : key ≠ "name" ∧ ∀ x ∈ cachedFields, x.2 ≠ key := by
    rcases cachedFields_cases hx with ⟨rfl,_⟩ | ⟨rfl,_⟩ <;> decide
  have hraw : ∀ q j, ¬(q = o ∧ j = key) → (w.now.rawset o key v).rawget q j = w.now.rawget q j :=
    fun q j hne => by rw [Core.rawget_rawset,if_neg hne]
  refine ⟨h.files,fun n q j hl hu hp hname x hxmem => ?_,fun x hxmem q => ?_,fun n q hq hp x hxmem => ?_,
    fun x hxmem => ?_,h.reached⟩
  · rw [leads_rawset hkey.1] at hl
    change (w.now.rawset o key v).rawget q "name" = .str j at hname
    rw [hraw q "name" fun he => hkey.1 he.2.symm] at hname
    by_cases he : q = o ∧ x.1 = key
    · obtain ⟨rfl,he⟩ := he
      right
      change (w.now.rawset q key v).rawget q x.1 = _
      rw [he,Core.rawget_rawset,if_pos ⟨rfl,rfl⟩]
      exact hv n j hl hu hname
    · change (w.now.rawset o key v).rawget q x.1 = _ ∨ (w.now.rawset o key v).rawget q x.1 = _
      rw [hraw q x.1 he]
      exact h.caches n q j hl hu hp hname x hxmem
  · change (w.now.rawset o key v).rawget q x.2 = _
    rw [hraw q x.2 fun he => hkey.2 x hxmem he.2]
    exact h.getters x hxmem q
  · change (w.now.rawset o key v).rawget q x.1 = _
    rw [hraw q x.1 fun he => hno (he.1 ▸ hp)]
    exact h.own n q hq hp x hxmem
  · change (w.now.rawset o key v).rawget phonyClass x.1 = _
    rw [hraw phonyClass x.1 fun he => ne_phonyClass hg hk he.1.symm]
    exact h.phony x hxmem

/-- What a table behind a target has under a field that is read. -/
theorem Pristine.found (h : B.Pristine w) (hg : B.origin.FileGraph) (hb : B.Books w) (hk : B.Knows w o)
    (hx : (key,getter) ∈ cachedFields) {p : ObjId} (hh : w.now.holder o key = some p)
    (hl : B.Leads w m o) (hu : ¬Touched w o) : B.Told w o key (w.now.rawget p key) := by
  obtain ⟨_,hchain⟩ := knows_chain hg hb hk
  have hmem : p ∈ o::(w.now.heap o).chain := List.mem_of_find?_eq_some hh
  have hne : w.now.rawget p key ≠ .nil := by simpa using List.find?_some hh
  constructor
  · intro hp
    rcases hchain with ⟨_,hn⟩ | ⟨hc,_,n,hn⟩
    · exact absurd hp hn
    · rw [hc] at hmem
      rcases List.mem_pair.mp hmem with rfl | rfl
      · exact absurd (h.own n p hn hp _ hx) hne
      · exact h.phony _ hx
  · intro hp k hname
    rcases hchain with ⟨hc,_⟩ | ⟨_,hn,_⟩
    · rw [hc] at hmem
      obtain rfl := List.mem_singleton.mp hmem
      exact (h.caches m p k hl hu hp hname _ hx).resolve_left hne
    · exact absurd hn hp

/-- A field of a target is read. -/
theorem Pristine.read (h : B.Pristine w) (hg : B.origin.FileGraph) (hr : B.Rooted) (hb : B.Books w)
    (hk : B.Knows w o) (hx : (key,getter) ∈ cachedFields) :
    wp (quietly (readCached E key getter o) : Engine Value) (fun r w' => B.Pristine w' ∧
      ∀ m, B.Leads w m o → ¬Touched w o → ∃ v, r = .ret v ∧ B.Told w o key v) w := by
  obtain ⟨ht,hchain⟩ := knows_chain hg hb hk
  unfold readCached
  rw [wp_quietly,wp_bind_gets]
  cases hh : (id w.now).holder o key with
  | some p => exact ⟨h,fun m hl hu => ⟨w.now.rawget p key,rfl,h.found hg hb hk hx hh hl hu⟩⟩
  | none =>
    have hnone : ∀ p ∈ o::(w.now.heap o).chain, w.now.rawget p key = .nil := by
      intro p hp
      simpa using List.find?_eq_none.mp hh p hp
    have hplain : w.now.base o = o ∧ ¬B.origin.IsPhony o := by
      rcases hchain with ⟨hc,hn⟩ | ⟨hc,_⟩
      · exact ⟨by simp [Core.base,hc],hn⟩
      · exfalso
        have hnil := hnone phonyClass (by simp [hc])
        rw [h.phony _ hx] at hnil
        rcases cachedFields_cases hx with ⟨rfl,_⟩ | ⟨rfl,_⟩ <;> cases hnil
    have hreg : w.now.registry getter = protectedMember getter := by
      rw [hb.registry]
      rcases cachedFields_cases hx with ⟨_,rfl⟩ | ⟨_,rfl⟩ <;> exact B.ready.sound.member _ (by decide)
    dsimp only
    rw [wp_ite,if_pos (show ((id w.now).heap o).isTarget = true from ht)]
    change wp (callGetter E (w.now.base o) getter >>= _) _ w.now
    have hstate := callGetter_state E w.now (w.now.base o) getter
    have hval : ∀ k, w.now.rawget o "name" = .str k →
        (callGetter E (w.now.base o) getter w.now).1 = .ret (cachedValue key w.now.files k) := by
      intro k hname
      rw [hplain.1,callGetter_disk hx (h.getters _ hx) hreg ht hname]
    rw [wp_bind]
    unfold wp
    rw [hstate]
    cases hrun : (callGetter E (w.now.base o) getter w.now).1 with
    | ret v =>
      have hv : ∀ m k, B.Leads w m o → ¬Touched w o → w.now.rawget o "name" = .str k →
          v = cachedValue key B.origin.files k := by
        intro m k hl hu hname
        have he := hval k hname
        rw [hrun] at he
        exact (Outcome.ret.inj he).trans (cachedValue_congr (h.same hr hb hl hu hname))
      refine ⟨?_,fun m hl hu => ⟨v,rfl,fun hp => absurd hp hplain.2,fun _ k => hv m k hl hu⟩⟩
      have hset := h.cache hg hk hx hplain.2 hv
      rw [← hplain.1] at hset
      exact hset
    | raise e =>
      refine ⟨h,fun m hl hu => ?_⟩
      obtain ⟨k,hname⟩ := Leads.name hr hb hl
      rw [hval k hname] at hrun
      cases hrun
    | diverge =>
      refine ⟨h,fun m hl hu => ?_⟩
      obtain ⟨k,hname⟩ := Leads.name hr hb hl
      rw [hval k hname] at hrun
      cases hrun

theorem Books.untouched (hb : B.Books w) (hr : B.Rooted) (hnil : w.now.rawget o "status" = .nil) :
    ¬Touched w o := fun ⟨_,hi⟩ => hb.started hr.commands _ hi hnil

theorem Books.untouched_later (hb : B.Books w) (hr : B.Rooted) (hle : B.origin.next ≤ o) :
    ¬Touched w o := fun ⟨_,hi⟩ => absurd (hb.targets hr.commands _ hi) (not_lt.mpr hle)

theorem Pristine.first (hg : B.origin.FileGraph) : B.Pristine ⟨B.origin,[]⟩ where
  files _ _ := rfl
  caches m q k hl _ _ _ x hx := by
    left
    rcases hl with ht | ⟨_,hle,hlt,_⟩
    · exact hg.plain m q ht.1 ht.2 x hx
    · exact absurd hlt (not_lt.mpr hle)
  getters x hx q := hg.getters x hx q
  own m q ht _ x hx := hg.plain m q ht.1 ht.2 x hx
  phony x hx := hg.phony x hx
  reached := .first

/-- Steps that see no files. -/
theorem Pristine.sees {c : Core} (h : B.Pristine w) (hr : B.Rooted)
    (hwatch : ∀ k ∈ Core.watched, k ∈ B.guarded) (hb : B.Ledger w) (hst : w.now.Stays B.guarded c)
    (hs : w.now.Sees B.guarded c) : B.Pristine { w with now := c } := by
  have hsame : ∀ x ∈ cachedFields, ∀ q < w.now.next, c.rawget q x.1 = w.now.rawget q x.1 :=
    fun x hx q hq => hs.caches x.1 (cachedFields_watched hx).1 (hwatch _ (cachedFields_watched hx).1) q hq
  have hname : ∀ q < w.now.next, c.rawget q "name" = w.now.rawget q "name" := fun q hq =>
    (hst.kept q hq "name" (by decide)).resolve_right fun hn => hn.1 hr.method.1
  refine ⟨fun p hp => (congrFun hs.files p).trans (h.files p hp),fun m q k hl hu hp hk x hx => ?_,fun x hx q => ?_,
    fun m q ht hp x hx => ?_,fun x hx => ?_,?_⟩
  · change c.rawget q "name" = .str k at hk
    by_cases hq : q < w.now.next
    · have hl' : B.Leads w m q := hl.imp id fun ⟨hn,hle,_,hm⟩ => ⟨hn,hle,hq,(hname q hq).symm.trans hm⟩
      change c.rawget q x.1 = _ ∨ c.rawget q x.1 = _
      rw [hsame x hx q hq]
      exact h.caches m q k hl' hu hp ((hname q hq).symm.trans hk) x hx
    · left
      rcases hl with ht | ⟨_,_,hlt,_⟩
      · exact absurd (ht.lt.trans_le hb.stays.next) hq
      · exact hs.blank x.1 (cachedFields_watched hx).1 (hwatch _ (cachedFields_watched hx).1) q (not_lt.mp hq) hlt
  · change c.rawget q x.2 = .nil
    rcases hs.old hst (cachedFields_watched hx).2 (hwatch _ (cachedFields_watched hx).2) q with he | he
    · rw [he]
      exact h.getters x hx q
    · exact he
  · exact (hsame x hx q (ht.lt.trans_le hb.stays.next)).trans (h.own m q ht hp x hx)
  · have hlt : phonyClass < w.now.next :=
      (Nat.lt_of_lt_of_le (by decide) B.ready.sound.classes).trans_le hb.stays.next
    exact (hsame x hx _ hlt).trans (h.phony x hx)
  · change B.origin.Produces E c.files
    rw [hs.files]
    exact h.reached

theorem Pristine.emit (h : B.Pristine w) (e : Event) :
    B.Pristine { w with trace := (e,w.now)::w.trace } := by
  have hmono : ∀ {q}, ¬Touched { w with trace := (e,w.now)::w.trace } q → ¬Touched w q :=
    fun hu ht => hu (ht.mono (P := fun _ => True) ⟨[(e,w.now)],rfl,by simp⟩)
  exact ⟨fun p hp => h.files p fun m q ht hq => hp m q ht (by_contra fun hn => hmono hn hq),
    fun m q k hl hu => h.caches m q k hl (hmono hu),h.getters,h.own,h.phony,h.reached⟩

/-- A command of a target changes the file of that target only. -/
theorem Pristine.resume {c : Core} {f : Fn} {name : Value} {i n : ℕ} {s : Signal} (h : B.Pristine w)
    (hb : B.Ledger w) (hE : B.origin.Confined E) (hrun : B.Runs o f name) (htouch : Touched w o)
    (hres : resumeCommand E f name i n w.now = (.ret s,c)) : B.Pristine { w with now := c } := by
  obtain ⟨m,ht⟩ := hrun.target
  obtain ⟨k,rfl,hk,_⟩ := hrun.name
  have hraw := rawget_of_resume hres
  refine ⟨fun p hp => ?_,fun m q k hl hu hp hname x hx => ?_,fun x hx q => (hraw _ _).trans (h.getters x hx q),
    fun m q ht hp x hx => (hraw _ _).trans (h.own m q ht hp x hx),fun x hx => (hraw _ _).trans (h.phony x hx),
    .resume h.reached ht.1 ht.2 hrun.command hk hres⟩
  · have hne : p ≠ k := by
      rintro rfl
      exact hp m o ht htouch hk
    exact (hE m o f k ht.1 ht.2 hrun.command hk i n _ s c hres p hne).trans (h.files p hp)
  · have hl' : B.Leads w m q := hl.imp id fun ⟨hn,hle,_,hm⟩ =>
      have hm' : w.now.rawget q "name" = .str m := (hraw _ _).symm.trans hm
      ⟨hn,hle,hb.allocated (by rw [hm']; simp),hm'⟩
    change c.rawget q x.1 = _ ∨ c.rawget q x.1 = _
    rw [hraw]
    exact h.caches m q k hl' hu hp ((hraw _ _).symm.trans hname) x hx

theorem Leads.dated (hr : B.Rooted) (hb : B.Books w) (hl : B.Leads w m o) {v : Value}
    (hv : B.Told w o "timestamp" v) : ∃ t, v = .num t ∧ (∀ m, B.Target m o → B.origin.Dated o t) ∧
      (B.origin.registry m = .nil → t = B.origin.files.stamp m) := by
  by_cases hph : B.origin.IsPhony o
  · refine ⟨0,hv.phony hph,fun n ht => .inl ⟨hph,rfl⟩,fun hnil => ?_⟩
    rcases hl with ht | ⟨_,hle,_⟩
    · rw [ht.1] at hnil
      cases hnil
    · simp [Core.IsPhony,B.ready.sound.fresh o hle] at hph
  · obtain ⟨k,hk⟩ := Leads.name hr hb hl
    refine ⟨B.origin.files.stamp k,hv.file hph k hk,fun n ht => ?_,fun hnil => ?_⟩
    · obtain ⟨k',hk',hname,_⟩ := Target.name hr hb ht
      obtain rfl := Value.str.inj (hk'.symm.trans hk)
      exact .inr ⟨hph,k',hname,rfl⟩
    · rcases hl with ht | ⟨_,_,_,hn⟩
      · rw [ht.1] at hnil
        cases hnil
      · rw [Value.str.inj (hn.symm.trans hk)]

theorem Leads.existing (hr : B.Rooted) (hb : B.Books w) (hl : B.Leads w m o) {v : Value}
    (hv : B.Told w o "exists" v) : v.truthy = true ↔ (B.Target m o → B.origin.Existing o) ∧
      (B.origin.registry m = .nil → B.origin.files.exists m) := by
  have hfile : ¬B.origin.IsPhony o → ∀ k, w.now.rawget o "name" = .str k →
      v.truthy = B.origin.files.exists k := fun hp k hk => by rw [hv.file hp k hk]; rfl
  rcases hl with ht | ⟨hnil,hle,_,hn⟩
  · have hreg : B.origin.registry m ≠ .nil := by simp [ht.1]
    obtain ⟨k,hk,hname,_⟩ := Target.name hr hb ht
    by_cases hp : B.origin.IsPhony o
    · have hno : v.truthy = false := by rw [hv.phony hp]; rfl
      rw [hno]
      exact ⟨(fun h => by cases h),fun h => absurd hp (h.1 ht).1⟩
    · rw [hfile hp k hk]
      refine ⟨fun hex => ⟨fun _ => ⟨hp,k,hname,hex⟩,fun h => absurd h hreg⟩,fun h => ?_⟩
      obtain ⟨_,k',hk',hex⟩ := h.1 ht
      rwa [Value.str.inj (hname.symm.trans hk')]
  · have hp : ¬B.origin.IsPhony o := by simp [Core.IsPhony,B.ready.sound.fresh o hle]
    rw [hfile hp m hn]
    refine ⟨fun hex => ⟨fun ht => ?_,fun _ => hex⟩,fun h => h.2 hnil⟩
    exact absurd (ht.1.symm.trans hnil) (by simp)

theorem Leads.notOlder {p : ObjId} {a b : ℤ} (hl : B.Leads w k p) (ha : B.origin.Dated o a)
    (hb : ∀ n, B.Target n p → B.origin.Dated p b)
    (hs : B.origin.registry k = .nil → b = B.origin.files.stamp k) : B.origin.NotOlder o k ↔ b ≤ a := by
  constructor
  · intro hno
    obtain ⟨hreg,hnil⟩ := hno a ha
    rcases hl with hp | hn
    · exact hreg p b hp.1 (hb k hp)
    · rw [hs hn.1]
      exact hnil hn.1
  · intro hle s hdated
    obtain rfl := hdated.unique ha
    refine ⟨fun q t hq hqt => ?_,fun hnil => by rwa [← hs hnil]⟩
    rcases hl with hp | hn
    · obtain rfl := Value.obj.inj (hp.1.symm.trans hq)
      rwa [hqt.unique (hb k hp)]
    · rw [hn.1] at hq
      cases hq

/-- A target that is asked for its timestamp, and then one of its dependencies. -/
theorem Pristine.compare (h : B.Pristine w) (hg : B.origin.FileGraph) (hr : B.Rooted) (hb : B.Books w)
    {p : ObjId} (ht : B.Target m o) (hu : ¬Touched w o) (hl : B.Leads w k p) :
    wp (do
      let s ← quietly (readTimestamp E o)
      let t ← quietly (readTimestamp E p)
      lessThan s t) (fun r w' => B.Pristine w' ∧ (¬Touched w p →
        (r = .ret false → B.origin.NotOlder o k) ∧ (B.origin.NotOlder o k → r = .ret false))) w := by
  have hmoves : Moves (B.Rests [o]) (quietly (readTimestamp E o)) :=
    rests_readCached List.mem_cons_self (by decide) _
  have hreads : ∀ q, Moves (Reads B.guarded) (quietly (readTimestamp E q)) :=
    fun q => reads_quietly (Signs.firm_readCached (by decide) _ _)
  have hx : ("timestamp","get_timestamp") ∈ cachedFields := by decide
  have ho := wp_and (h.read hg hr hb (ht.knows w) hx) (wp_and (hmoves.wp w) ((hreads o).wp w))
  apply wp_bind_of ho
  · rintro s w' ⟨⟨h',hs⟩,hrest,hread⟩
    obtain ⟨hb',hi⟩ := hrest hb (by simpa using ht.knows w)
    have hl' : B.Leads w' k p := Signs.Leads.along hr hl (.of_idles hr hi hread.firm)
    have hp := wp_and (h'.read hg hr hb' (Signs.Leads.knows hl') hx) ((hreads p).wp w')
    have hsame : ¬Touched w p → ¬Touched w' p := by
      unfold Touched starts
      rw [hread.trace]
      exact id
    apply wp_bind_of hp
    · rintro t w'' ⟨⟨h'',ht'⟩,_⟩
      refine ⟨?_,fun hup => ?_⟩
      · unfold lessThan
        split <;> exact h''
      · obtain ⟨_,⟨rfl⟩,hv⟩ := hs m (.inl ht) hu
        obtain ⟨a,rfl,ha,_⟩ := Leads.dated hr hb (.inl ht) hv
        obtain ⟨_,⟨rfl⟩,hv'⟩ := ht' k hl' (hsame hup)
        obtain ⟨b,rfl,hbt,hbn⟩ := Leads.dated hr hb' hl' hv'
        have hab : B.origin.NotOlder o k ↔ b ≤ a := Leads.notOlder hl (ha m ht) hbt hbn
        rw [hab]
        have hrun : lessThan (.num a) (.num b) w'' = (.ret (decide (a < b)),w'') := rfl
        rw [hrun]
        refine ⟨fun hr => ?_,fun hle => ?_⟩
        · have hdec : decide (a < b) = false := Outcome.ret.inj hr
          simpa using hdec
        · rw [decide_eq_false (not_lt.mpr hle)]
    all_goals
      intros
      rename_i hw
      refine ⟨hw.1.1,fun hup => ?_⟩
      obtain ⟨_,hv,_⟩ := hw.1.2 k hl' (hsame hup)
      cases hv
  all_goals
    intros
    rename_i hw
    obtain ⟨_,hv,_⟩ := hw.1.2 m (.inl ht) hu
    cases hv

/-- The file of a target that has not been started is looked for. -/
theorem Pristine.absent (h : B.Pristine w) (hg : B.origin.FileGraph) (hr : B.Rooted) (hb : B.Books w)
    (hk : B.Knows w o) (hu : ¬Touched w o) : wp (do
      let v ← quietly (readExists E o)
      pure !v.truthy : Engine Bool) (fun r w' => B.Pristine w' ∧
      (r = .ret false → (∀ m, B.Target m o → B.origin.Existing o) ∧
        ∀ m, B.Leads w m o → B.origin.registry m = .nil → B.origin.files.exists m) ∧
      (∀ m, B.Leads w m o → (B.Target m o → B.origin.Existing o) →
        (B.origin.registry m = .nil → B.origin.files.exists m) → r = .ret false)) w := by
  have hx : ("exists","get_exists") ∈ cachedFields := by decide
  apply wp_bind_of (h.read hg hr hb hk hx)
  · rintro v w' ⟨h',hv⟩
    have hvalue : ∀ m, B.Leads w m o → (v.truthy = true ↔ (B.Target m o → B.origin.Existing o) ∧
        (B.origin.registry m = .nil → B.origin.files.exists m)) := by
      intro m hl
      obtain ⟨_,⟨rfl⟩,hv⟩ := hv m hl hu
      exact Leads.existing hr hb hl hv
    refine ⟨h',fun hret => ?_,fun m hl hex hsource => ?_⟩
    · have htruthy : v.truthy = true := by simpa using Outcome.ret.inj hret
      exact ⟨fun m ht => ((hvalue m (.inl ht)).mp htruthy).1 ht,fun m hl => ((hvalue m hl).mp htruthy).2⟩
    · have htruthy : v.truthy = true := (hvalue m hl).mpr ⟨hex,hsource⟩
      simp only [htruthy]
      rfl
  · exact fun e w' hw => ⟨hw.1,(fun hr => by cases hr),fun m hl _ _ => by
      obtain ⟨_,hv,_⟩ := hw.2 m hl hu
      cases hv⟩
  · exact fun w' hw => ⟨hw.1,(fun hr => by cases hr),fun m hl _ _ => by
      obtain ⟨_,hv,_⟩ := hw.2 m hl hu
      cases hv⟩

/-- A target that has not been started is looked for. -/
theorem Pristine.missing (h : B.Pristine w) (hg : B.origin.FileGraph) (hr : B.Rooted) (hb : B.Books w)
    (hk : B.Knows w o) (hu : ¬Touched w o) : wp (missing E o) (fun r w' => B.Pristine w' ∧
      (r = .ret false → (∀ m, B.Target m o → B.origin.Existing o) ∧
        ∀ m, B.Leads w m o → B.origin.registry m = .nil → B.origin.files.exists m) ∧
      (E.flags.alwaysMake = false → ∀ m, B.Leads w m o → (B.Target m o → B.origin.Existing o) →
        (B.origin.registry m = .nil → B.origin.files.exists m) → r = .ret false)) w := by
  unfold Presto.missing
  rw [wp_ite]
  split_ifs with hB
  · exact ⟨h,(fun hr => by cases hr),fun hA => by rw [hA] at hB; cases hB⟩
  · exact wp_mono (h.absent hg hr hb hk hu) fun _ _ ⟨h',hret,hsure⟩ => ⟨h',hret,fun _ => hsure⟩

/-- A target that answers `none` was up to date from the beginning, and is never started. -/
def freshSigns (B : Build E) (hg : B.origin.FileGraph) (hr : B.Rooted) (hE : B.origin.Confined E)
    (hwatch : ∀ k ∈ Core.watched, k ∈ B.guarded) : B.Signs where
  Still o := B.origin.Fresh E.flags.alwaysMake o
  Source m := B.origin.files.exists m
  Present o := B.origin.Existing o
  Clean o n := E.flags.alwaysMake = false → B.origin.NotOlder o n ∧
    ∀ p, B.Target n p → B.origin.Fresh E.flags.alwaysMake p
  Sure o := E.flags.alwaysMake = false ∧ B.origin.Fresh E.flags.alwaysMake o ∧ ∃ m, B.Target m o
  Good _ _ := True
  Inv := B.Pristine
  first := .first hg
  sees hb h hst hs := h.sees hr hwatch hb hst hs
  emit e h := h.emit e
  keeps h _ := h
  records _ h := h
  resume {w o f name i n s c} hb h hrun hstart _ _ hres :=
    ⟨h.resume hb hE hrun ⟨i,hstart⟩ hres,fun _ => trivial,fun _ _ _ _ => trivial⟩
  missing hb h hk hnil := by
    apply wp_mono (h.missing hg hr hb hk (hb.untouched hr hnil))
    rintro r w' ⟨h',hret,hsure⟩
    refine ⟨h',hret,fun ⟨hA,hf,m,ht⟩ => ?_⟩
    obtain ⟨_,hold,_⟩ := hf
    rw [hsure hA m (.inl ht) (fun _ => (hold hA).1) fun hnil => by rw [ht.1] at hnil; cases hnil]
    simp
  compare {w m k o p} hb h ht hnil hk hl hstill _ hsure := by
    apply wp_mono (h.compare hg hr hb ht (hb.untouched hr hnil) hl)
    rintro r w' ⟨h',hclean⟩
    have hu : E.flags.alwaysMake = false → ¬Touched w p := by
      intro hA
      rcases hl with hp | ⟨_,hle,_⟩
      · rintro ⟨i,hi⟩
        exact hsure (p,i) hi ⟨hA,hstill k hp,k,hp⟩
      · exact hb.untouched_later hr hle
    refine ⟨h',fun hret hA => ⟨(hclean (hu hA)).1 hret,fun q hq => by
      rcases hl with hp | hn
      · obtain rfl := Value.obj.inj (hp.1.symm.trans hq.1)
        exact hstill k hp
      · exact absurd (hn.1.symm.trans hq.1) (by simp)⟩,fun ⟨hA,hf,_⟩ => ?_⟩
    obtain ⟨_,hold,_⟩ := hf
    rw [(hclean (hu hA)).2 ((hold hA).2 k hk)]
    simp
  reading hb h hk hnil := (h.read hg hr hb hk (by decide)).1
  fresh {m o} ht hA hex hclean := .mk (fun h => by rw [hA] at h; cases h)
    (fun _ => ⟨hex,fun n hn => (hclean n hn hA).1⟩)
    fun _ n hn p hp htp => (hclean n hn hA).2 p ⟨hp,htp⟩
  bound ht hA hc := .mk (fun _ => hc) (fun h => by rw [hA] at h; cases h) fun h => by rw [hA] at h; cases h
  sure {o} hs n hn p hp := by
    obtain ⟨hA,hf,_⟩ := hs
    obtain ⟨_,_,hdeps⟩ := hf
    exact ⟨hA,hdeps hA n hn p hp.1 hp.2,n,hp⟩

end Build
end Presto
