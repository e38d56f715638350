import Presto.Engine.Statuses

/-! Directory targets. Their field `exists` is a function and not its answer, so a directory
target is built only if a dependency asks for it, or with `-B`. -/
namespace Presto
open Program Traced

namespace Core
variable (c : Core)

/-- A target made by `dir_target`. -/
def IsDirectory (o : ObjId) : Prop := dirClass ∈ (c.heap o).chain

/-- A graph of file, phony and directory targets as mkinit.lua makes them, in which none is
registered under the name `deps_newer`. -/
structure DirGraph : Prop extends c.Regular where
  newer : c.registry "deps_newer" = .nil
  chain : ∀ m o, c.registry m = .obj o → (c.heap o).isTarget →
    (c.heap o).chain = [] ∨ (c.heap o).chain = [phonyClass] ∨ (c.heap o).chain = [dirClass]
  classes : ∀ m o, c.registry m = .obj o → (c.heap o).isTarget → o ≠ dirClass ∧ o ≠ phonyClass
  plain : ∀ o, o ≠ dirClass → o ≠ phonyClass → ∀ k ∈ watched, c.rawget o k = .nil
  getters : ∀ k ∈ ["get_exists","get_timestamp"], ∀ o, c.rawget o k = .nil
  phony : c.rawget phonyClass "timestamp" = .num 0
  dir : c.rawget dirClass "timestamp" = .num beginningOfTime ∧ c.rawget dirClass "command" = .fn .dirCommand
  command : ∀ m o, c.registry m = .obj o → (c.heap o).isTarget → c.IsDirectory o →
    c.rawget o "command" = .nil

/-- The directory target `o` leads, through directory targets, to something else. -/
inductive Leaves : ObjId → Prop
  | other {o : ObjId} {n : String} : n ∈ c.deps o →
    (∀ d, c.registry n = .obj d → (c.heap d).isTarget → ¬c.IsDirectory d) → Leaves o
  | through {o d : ObjId} {n : String} : n ∈ c.deps o → c.registry n = .obj d → (c.heap d).isTarget →
    c.IsDirectory d → Leaves d → Leaves o

/-- The directory of the target `o` is there in the files `fs`. -/
def Made (o : ObjId) (fs : FileSystem) : Prop := ∀ k, c.rawget o "name" = .str k → fs.isDir k = true

end Core

theorem beginningOfTime_neg : beginningOfTime < 0 :=
  neg_lt_zero.mpr (sub_pos.mpr (pow_lt_pow_right₀ (by norm_num) (by norm_num)))

/-- Every time of a file is later than `make.beginning_of_time`. -/
def FileSystem.Timed (fs : FileSystem) : Prop := ∀ p t, fs p = .file t → beginningOfTime < t

/-- No directory is removed, and times are times. -/
def FileSystem.Grows (fs fs' : FileSystem) : Prop :=
  (∀ p, fs p = .dir → fs' p = .dir) ∧ (fs.Timed → fs'.Timed)

/-- The directory of `o` is made when it is needed, and is there when the build has ended. -/
structure MakesDirectory (E : Env) (c : Core) (o : ObjId) : Prop where
  used : ∀ x ∈ (updateGoals E ⟨c,[]⟩).2.trace, ∀ p i, x.1 = .start p i → ∀ n ∈ c.deps p,
    c.registry n = .obj o → c.Made o x.2.files
  ended : (updateGoals E ⟨c,[]⟩).1 = .ret () → c.Wants o → c.Made o (updateGoals E ⟨c,[]⟩).2.now.files

namespace Core.DirGraph
variable {E : Env} {c : Core}

def build (h : c.DirGraph) (hslots : 1 ≤ E.slots) : Build E :=
  ⟨c,engineFields ∪ watched.toFinset,h.ready,status_guarded,.inl h.newer,hslots⟩

theorem rooted (h : c.DirGraph) (hslots : 1 ≤ E.slots) : (h.build hslots).Rooted where
  method := ⟨show "name" ∈ engineFields ∪ watched.toFinset by decide,
    show "bring_up_to_date" ∈ engineFields ∪ watched.toFinset by decide,h.method⟩
  commands := ⟨show "command" ∈ engineFields ∪ watched.toFinset by decide,h.callable⟩
  deps := show "deps" ∈ engineFields ∪ watched.toFinset by decide
  failed := show "dep_status" ∈ engineFields ∪ watched.toFinset by decide
  unfailed := h.unfailed
  roots m o ht p hp n hn := h.roots m o ht.1 ht.2 p hp n hn

end Core.DirGraph

namespace Build
variable {E : Env} {B : Build E} {w w' : World} {o : ObjId}

/-- What is known of the times: nothing but directories is from the beginning of time. -/
structure Times (B : Build E) (w : World) : Prop where
  timed : w.now.files.Timed
  dirs : ∀ p, B.origin.files p = .dir → w.now.files p = .dir
  class_ : w.now.rawget dirClass "timestamp" = .num beginningOfTime
  own : ∀ m o, B.Target m o → B.origin.IsDirectory o → w.now.rawget o "timestamp" = .nil
  others : ∀ o ≠ dirClass, w.now.rawget o "timestamp" = .nil ∨
    ∃ t, beginningOfTime < t ∧ w.now.rawget o "timestamp" = .num t
  getters : ∀ o, w.now.rawget o "get_timestamp" = .nil

variable (B) in
/-- A directory target that answers `none` without `-B`. -/
inductive Unmade : ObjId → Prop
  | mk {o : ObjId} :
    (B.origin.IsDirectory o → ∀ n ∈ B.origin.deps o, ∃ d, B.Target n d ∧ B.origin.IsDirectory d) →
    (B.origin.IsDirectory o → ∀ n ∈ B.origin.deps o, ∀ d, B.Target n d → Unmade d) → Unmade o

theorem Unmade.not_leaves (h : B.Unmade o) (hd : B.origin.IsDirectory o) : ¬B.origin.Leaves o := by
  induction h with
  | mk hdirs _ ih =>
    rintro (⟨hn,hno⟩ | ⟨hn,hreg,ht,hdir,hl⟩)
    · obtain ⟨d,ht,hdir⟩ := hdirs hd _ hn
      exact hno d ht.1 ht.2 hdir
    · exact ih hd _ hn _ ⟨hreg,ht⟩ hdir hl

/-- What `get_timestamp` finds on disk is later than the beginning of time. -/
theorem callGetter_times (hb : B.Books w) (h : B.Times w) (p : ObjId) {v : Value}
    (hv : (callGetter E p "get_timestamp" w.now).1 = .ret v) : ∃ t, beginningOfTime < t ∧ v = .num t := by
  have hattr : w.now.attr p "get_timestamp" = .fn (.method .getTimestamp) ∨
      w.now.attr p "get_timestamp" = .nil := by
    have hnone : w.now.holder p "get_timestamp" = none :=
      List.find?_eq_none.mpr fun q _ => by simp [h.getters q]
    simp only [Core.attr,hnone,hb.registry]
    rw [B.ready.sound.member "get_timestamp" (by decide)]
    split_ifs
    · exact .inl rfl
    · exact .inr rfl
  unfold callGetter at hv
  rw [run_bind_gets] at hv
  rcases hattr with ha | ha <;> simp only [id,ha] at hv
  · unfold getTimestamp at hv
    rw [run_bind_gets] at hv
    have hpath : ∀ path : String, (if w.now.files.exists path then (w.now.files.time path).getD 0 else 0) = 0 ∨
        w.now.files path = .file (if w.now.files.exists path then (w.now.files.time path).getD 0 else 0) := by
      intro path
      unfold FileSystem.exists FileSystem.time
      cases w.now.files path <;> simp
    have hnum : ∀ path : String, ∃ t, beginningOfTime < t ∧
        (if w.now.files.exists path then (w.now.files.time path).getD 0 else 0) = t := by
      intro path
      rcases hpath path with h0 | hf
      · exact ⟨0,beginningOfTime_neg,h0⟩
      · exact ⟨_,h.timed path _ hf,rfl⟩
    cases hname : w.now.attr p "name" with
    | str path =>
      simp only [id,hname,checkPath,run_bind_pure,run_pure] at hv
      obtain ⟨t,ht,he⟩ := hnum path
      exact ⟨t,ht,by rw [← he]; exact (Outcome.ret.inj hv).symm⟩
    | num n =>
      simp only [id,hname,checkPath,run_bind_pure,run_pure] at hv
      obtain ⟨t,ht,he⟩ := hnum (toString n)
      exact ⟨t,ht,by rw [← he]; exact (Outcome.ret.inj hv).symm⟩
    | _ =>
      simp only [id,hname,checkPath] at hv
      cases hv
  · cases hv

/-- The classes behind a target. -/
theorem classes_of_knows (hB : B.origin.DirGraph) (hb : B.Books w) (h : B.Times w) (hk : B.Knows w o) :
    o ≠ dirClass ∧ ((w.now.heap o).chain = [] ∧ ¬B.origin.IsDirectory o ∨
      (w.now.heap o).chain = [phonyClass] ∧ ¬B.origin.IsDirectory o ∨
      (w.now.heap o).chain = [dirClass] ∧ B.origin.IsDirectory o ∧ w.now.rawget o "timestamp" = .nil) := by
  rcases hk with ⟨m,hm,ht⟩ | ⟨hle,hlt⟩
  · refine ⟨(hB.classes m o hm ht).1,?_⟩
    rw [hb.stays.chain o (B.ready.sound.registered hm)]
    rcases hB.chain m o hm ht with hn | hn | hn
    · exact .inl (by simp [Core.IsDirectory,hn])
    · exact .inr (.inl (by simp [Core.IsDirectory,hn,phonyClass,dirClass]))
    · exact .inr (.inr ⟨hn,by simp [Core.IsDirectory,hn],h.own m o ⟨hm,ht⟩ (by simp [Core.IsDirectory,hn])⟩)
  · refine ⟨?_,.inl ⟨(hb.stays.later o hle hlt).chain,by simp [Core.IsDirectory,B.ready.sound.fresh o hle]⟩⟩
    rintro rfl
    exact absurd (Nat.lt_of_lt_of_le (by decide) B.ready.sound.classes) (not_lt.mpr hle)

/-- A cached timestamp. -/
theorem Times.cache (h : B.Times w) {p : ObjId} (hp : p ≠ dirClass)
    (hdir : ∀ m, B.Target m p → ¬B.origin.IsDirectory p) {t : ℤ} (ht : beginningOfTime < t) :
    B.Times { w with now := w.now.rawset p "timestamp" (.num t) } where
  timed := h.timed
  dirs := h.dirs
  class_ := by
    rw [Core.rawget_rawset,if_neg (fun he => hp he.1.symm)]
    exact h.class_
  own m q hq hqd := by
    rw [Core.rawget_rawset,if_neg]
    · exact h.own m q hq hqd
    · rintro ⟨rfl,_⟩
      exact hdir m hq hqd
  others q hq := by
    rw [Core.rawget_rawset]
    split_ifs
    · exact .inr ⟨t,ht,rfl⟩
    · exact h.others q hq
  getters q := by
    rw [Core.rawget_rawset,if_neg (by simp)]
    exact h.getters q

/-- What the timestamp of a target is. -/
theorem timestamp_times (hB : B.origin.DirGraph) (hb : B.Books w) (h : B.Times w) (hk : B.Knows w o) :
    wp (quietly (readTimestamp E o) : Engine Value) (fun r w' => B.Times w' ∧ ∀ v, r = .ret v →
      (B.origin.IsDirectory o → v = .num beginningOfTime) ∧
      (¬B.origin.IsDirectory o → ∃ t, beginningOfTime < t ∧ v = .num t)) w := by
  obtain ⟨hne,hcases⟩ := classes_of_knows hB hb h hk
  unfold readTimestamp readCached
  rw [wp_quietly,wp_bind_gets]
  cases hh : (id w.now).holder o "timestamp" with
  | some p =>
    refine ⟨h,?_⟩
    rintro _ ⟨rfl⟩
    have hmem := List.mem_of_find?_eq_some hh
    have hraw : w.now.rawget p "timestamp" ≠ .nil := by simpa using List.find?_some hh
    have hother : p ≠ dirClass → ∃ t, beginningOfTime < t ∧ w.now.rawget p "timestamp" = .num t :=
      fun hp => (h.others p hp).resolve_left hraw
    change p ∈ o::(w.now.heap o).chain at hmem
    rcases hcases with ⟨hc,hd⟩ | ⟨hc,hd⟩ | ⟨hc,hd,hnil⟩ <;> rw [hc] at hmem
    · obtain rfl := List.mem_singleton.mp hmem
      exact ⟨fun h => absurd h hd,fun _ => hother hne⟩
    · rcases List.mem_pair.mp hmem with rfl | rfl
      · exact ⟨fun h => absurd h hd,fun _ => hother hne⟩
      · exact ⟨fun h => absurd h hd,fun _ => hother (by decide)⟩
    · rcases List.mem_pair.mp hmem with rfl | rfl
      · exact absurd hnil hraw
      · exact ⟨fun _ => h.class_,fun h => absurd hd h⟩
  | none =>
    dsimp only
    rw [wp_ite]
    have htarget : ((id w.now).heap o).isTarget = true := (hk.tables hb.toLedger).1
    rw [if_pos htarget]
    · have hnone : ∀ p ∈ o::(w.now.heap o).chain, w.now.rawget p "timestamp" = .nil := by
        intro p hp
        simpa using List.find?_eq_none.mp hh p hp
      have hdir : ¬B.origin.IsDirectory o ∧ w.now.base o ≠ dirClass ∧
          ∀ m, B.Target m (w.now.base o) → ¬B.origin.IsDirectory (w.now.base o) := by
        rcases hcases with ⟨hc,hd⟩ | ⟨hc,hd⟩ | ⟨hc,_,_⟩
        · have hbase : w.now.base o = o := by simp [Core.base,hc]
          rw [hbase]
          exact ⟨hd,hne,fun _ _ => hd⟩
        · have hbase : w.now.base o = phonyClass := by simp [Core.base,hc]
          rw [hbase]
          exact ⟨hd,by decide,fun m hm => absurd rfl (hB.classes m phonyClass hm.1 hm.2).2⟩
        · have hnil := hnone dirClass (by simp [hc])
          exact absurd (h.class_.symm.trans hnil) (by simp)
      rw [wp_bind]
      unfold wp
      have hval := fun v => callGetter_times (E := E) (v := v) hb h (w.now.base o)
      have hstate := callGetter_state E w.now (w.now.base o) "get_timestamp"
      change seqPost _ _ (callGetter E (w.now.base o) "get_timestamp" w.now).1
        (callGetter E (w.now.base o) "get_timestamp" w.now).2
      rw [hstate]
      cases hr : (callGetter E (w.now.base o) "get_timestamp" w.now).1 with
      | ret v =>
        obtain ⟨t,ht,rfl⟩ := hval v hr
        refine ⟨h.cache hdir.2.1 hdir.2.2 ht,?_⟩
        rintro _ ⟨rfl⟩
        exact ⟨fun h => absurd h hdir.1,fun _ => ⟨t,ht,rfl⟩⟩
      | raise e => exact ⟨h,fun v hv => by cases hv⟩
      | diverge => exact ⟨h,fun v hv => by cases hv⟩

/-- What `exists` is read to be says nothing about times. -/
theorem exists_times (h : B.Times w) : B.Times { w with now := (readExists E o w.now).2 } := by
  have hwp : wp (readExists E o) (fun _ c => B.Times { w with now := c }) w.now := by
    unfold readExists readCached
    rw [wp_bind_gets]
    cases hh : (id w.now).holder o "exists" with
    | some p => exact h
    | none =>
      dsimp only
      rw [wp_ite]
      split_ifs
      · have hset : ∀ v, B.Times { w with now := w.now.rawset (w.now.base o) "exists" v } := by
          intro v
          refine ⟨h.timed,h.dirs,?_,fun m q hq hqd => ?_,fun q hq => ?_,fun q => ?_⟩
          · rw [Core.rawget_rawset,if_neg (by simp)]
            exact h.class_
          · rw [Core.rawget_rawset,if_neg (by simp)]
            exact h.own m q hq hqd
          · rw [Core.rawget_rawset,if_neg (by simp)]
            exact h.others q hq
          · rw [Core.rawget_rawset,if_neg (by simp)]
            exact h.getters q
        rw [wp_bind]
        unfold wp
        have hstate := callGetter_state E w.now (w.now.base o) "get_exists"
        change seqPost _ _ (callGetter E (w.now.base o) "get_exists" w.now).1
          (callGetter E (w.now.base o) "get_exists" w.now).2
        rw [hstate]
        cases (callGetter E (w.now.base o) "get_exists" w.now).1 with
        | ret v => exact hset v
        | raise e => exact h
        | diverge => exact h
      · exact h
  exact hwp

theorem command_directory (hB : B.origin.DirGraph) {m : String} (ht : B.Target m o)
    (hd : B.origin.IsDirectory o) : B.origin.attr o "command" = .fn .dirCommand := by
  have hchain : (B.origin.heap o).chain = [dirClass] := by
    rcases hB.chain m o ht.1 ht.2 with hn | hn | hn
    · simp [Core.IsDirectory,hn] at hd
    · simp [Core.IsDirectory,hn,phonyClass,dirClass] at hd
    · exact hn
  have hnil := hB.command m o ht.1 ht.2 hd
  have hholder : B.origin.holder o "command" = some dirClass := by
    simp [Core.holder,hchain,hnil,hB.dir.2]
  simp [Core.attr,hholder,hB.dir.2]

/-- A resume of a command removes no directory, and the command of a directory target ends when
the directory is there. -/
theorem resumeCommand_grows (hcmd : ∀ f name i n fs, FileSystem.Grows fs ((E.resume f name i n).effect fs))
    (hmd : ∀ path fs fs', E.md path fs = some fs' → fs'.isDir path = true ∧ FileSystem.Grows fs fs')
    {f : Fn} {name : Value} {i n : ℕ} {c c' : Core} {s : Signal}
    (hres : resumeCommand E f name i n c = (.ret s,c')) : FileSystem.Grows c.files c'.files ∧
      ∀ path, f = .dirCommand → name = .str path → s = .finished → c'.files.isDir path = true := by
  have hsame : FileSystem.Grows c.files c.files := ⟨fun _ => id,id⟩
  unfold resumeCommand at hres
  rw [run_bind_gets] at hres
  split at hres
  · cases hres
    exact ⟨hsame,fun _ hf => by cases hf⟩
  · split at hres
    · next path =>
      split at hres
      · next hdir =>
        cases hres
        refine ⟨hsame,fun p _ hp _ => ?_⟩
        cases hp
        exact hdir
      · cases hm : E.md path (id c).files with
        | none =>
          rw [hm] at hres
          cases hres
          exact ⟨hsame,fun _ _ _ hs => by cases hs⟩
        | some fs =>
          rw [hm] at hres
          cases hres
          obtain ⟨hdir,hgrows⟩ := hmd path c.files fs hm
          refine ⟨hgrows,fun p _ hp _ => ?_⟩
          cases hp
          exact hdir
    · next hno =>
      cases hres
      exact ⟨hsame,fun p _ hp => absurd hp (hno p)⟩
  · next hno =>
    cases hres
    exact ⟨hcmd f name i n c.files,fun _ hf => absurd hf hno⟩

theorem Times.first (hB : B.origin.DirGraph) (htimed : B.origin.files.Timed) :
    B.Times ⟨B.origin,[]⟩ := by
  refine ⟨htimed,fun _ => id,hB.dir.1,fun m o ht hd => ?_,fun o ho => ?_,hB.getters _ (by decide)⟩
  · obtain ⟨h₁,h₂⟩ := hB.classes m o ht.1 ht.2
    exact hB.plain o h₁ h₂ _ (by decide)
  · by_cases hp : o = phonyClass
    · subst hp
      exact .inr ⟨0,beginningOfTime_neg,hB.phony⟩
    · exact .inl (hB.plain o ho hp _ (by decide))

/-- A step of the engine keeps what is known of the times. -/
theorem Times.sees {c : Core} (hwatch : ∀ k ∈ Core.watched, k ∈ B.guarded) (hb : B.Ledger w)
    (h : B.Times w) (hst : w.now.Stays B.guarded c) (hs : w.now.Sees B.guarded c) :
    B.Times { w with now := c } := by
  refine ⟨by rw [hs.files]; exact h.timed,fun p hp => by rw [hs.files]; exact h.dirs p hp,?_,fun m q hq hd => ?_,
    fun q hq => ?_,fun q => ?_⟩
  · have hlt : dirClass < w.now.next :=
      (Nat.lt_of_lt_of_le (by decide) B.ready.sound.classes).trans_le hb.stays.next
    exact (hs.caches _ (by decide) (hwatch _ (by decide)) _ hlt).trans h.class_
  · exact (hs.caches _ (by decide) (hwatch _ (by decide)) _ (hq.lt.trans_le hb.stays.next)).trans (h.own m q hq hd)
  · rcases hs.old hst (by decide) (hwatch "timestamp" (by decide)) q with he | he
    · rw [he]
      exact h.others q hq
    · exact .inl he
  · rcases hs.old hst (by decide) (hwatch "get_timestamp" (by decide)) q with he | he
    · rw [he]
      exact h.getters q
    · exact he

/-- So does a resume of a command; it makes the directory of its target and removes no other one. -/
theorem Times.resume (hB : B.origin.DirGraph)
    (hcmd : ∀ f name i n fs, FileSystem.Grows fs ((E.resume f name i n).effect fs))
    (hmd : ∀ path fs fs', E.md path fs = some fs' → fs'.isDir path = true ∧ FileSystem.Grows fs fs')
    {f : Fn} {name : Value} {i n : ℕ} {s : Signal} {c : Core} (h : B.Times w) (hrun : B.Runs o f name)
    (hres : resumeCommand E f name i n w.now = (.ret s,c)) : B.Times { w with now := c } ∧
      (s = .finished → B.origin.IsDirectory o → B.origin.Made o c.files) ∧
      ∀ q, (B.origin.IsDirectory q → B.origin.Made q w.now.files) →
        B.origin.IsDirectory q → B.origin.Made q c.files := by
  obtain ⟨hgrows,hdone⟩ := resumeCommand_grows hcmd hmd hres
  have hraw := rawget_of_resume hres
  refine ⟨⟨hgrows.2 h.timed,fun p hp => hgrows.1 p (h.dirs p hp),(hraw _ _).trans h.class_,
    fun m q hq hd => (hraw _ _).trans (h.own m q hq hd),fun q hq => by rw [hraw]; exact h.others q hq,
    fun q => (hraw _ _).trans (h.getters q)⟩,fun hs hd k hk => ?_,fun q hg hd k hk => ?_⟩
  · obtain ⟨m,ht⟩ := hrun.target
    obtain ⟨k',hname,hraw',_⟩ := hrun.name
    have hf : f = .dirCommand := Value.fn.inj (hrun.command.symm.trans (command_directory hB ht hd))
    obtain rfl := Value.str.inj (hraw'.symm.trans hk)
    exact hdone _ hf hname hs
  · have hdir : w.now.files k = .dir := by simpa [FileSystem.isDir] using hg hd k hk
    simp [FileSystem.isDir,hgrows.1 k hdir]

/-- A directory target is older than any dependency that is no directory target. -/
theorem Times.compare (hB : B.origin.DirGraph) {m k : String} {p : ObjId} (hb : B.Books w)
    (h : B.Times w) (ht : B.Target m o) (hl : B.Leads w k p)
    (hstill : ∀ n, B.Target n p → E.flags.alwaysMake = false → B.Unmade p) : wp (do
      let s ← quietly (readTimestamp E o)
      let t ← quietly (readTimestamp E p)
      lessThan s t) (fun r w' => B.Times w' ∧ (r = .ret false → B.origin.IsDirectory o →
        ∃ d, B.Target k d ∧ B.origin.IsDirectory d ∧ (E.flags.alwaysMake = false → B.Unmade d))) w := by
  have ho := timestamp_times (E := E) hB hb h (ht.knows w)
  have hmoves : Moves (B.Rests [o]) (quietly (readTimestamp E o)) :=
    rests_readCached List.mem_cons_self (by decide) _
  have hrests := hmoves.wp w
  apply wp_bind_of (wp_and ho hrests)
  · rintro s w' ⟨⟨h',hs⟩,hr⟩
    obtain ⟨hb',hi⟩ := hr hb (by simpa using ht.knows w)
    apply wp_bind_of (timestamp_times (E := E) hB hb' h' ((Signs.Leads.knows hl).mono hi.next))
    · rintro t w'' ⟨h'',ht'⟩
      refine ⟨?_,?_⟩
      · unfold lessThan
        split <;> exact h''
      · intro hr hd
        by_contra hno
        have hp : ¬B.origin.IsDirectory p := by
          intro hpd
          apply hno
          rcases hl with hp | ⟨_,hle,_⟩
          · exact ⟨p,hp,hpd,hstill k hp⟩
          · simp [Core.IsDirectory,B.ready.sound.fresh p hle] at hpd
        obtain ⟨t',hlt,rfl⟩ := (ht' t rfl).2 hp
        rw [(hs s rfl).1 hd] at hr
        have hdec : decide (beginningOfTime < t') = false := Outcome.ret.inj hr
        simp [hlt] at hdec
    · exact fun e w'' hw => ⟨hw.1,fun hr => by cases hr⟩
    · exact fun w'' hw => ⟨hw.1,fun hr => by cases hr⟩
  · exact fun e w' hw => ⟨hw.1.1,fun hr => by cases hr⟩
  · exact fun w' hw => ⟨hw.1.1,fun hr => by cases hr⟩

/-- A directory target that has been updated is a directory, and one that answers `none` is none
that anything asks for. -/
def directorySigns (B : Build E) (hB : B.origin.DirGraph) (hwatch : ∀ k ∈ Core.watched, k ∈ B.guarded)
    (htimed : B.origin.files.Timed)
    (hcmd : ∀ f name i n fs, FileSystem.Grows fs ((E.resume f name i n).effect fs))
    (hmd : ∀ path fs fs', E.md path fs = some fs' → fs'.isDir path = true ∧ FileSystem.Grows fs fs') :
    B.Signs where
  Still o := (E.flags.alwaysMake = false → B.Unmade o) ∧ (E.flags.alwaysMake = true → ¬B.origin.IsDirectory o)
  Source _ := True
  Present _ := True
  Clean o n := B.origin.IsDirectory o → ∃ d, B.Target n d ∧ B.origin.IsDirectory d ∧
    (E.flags.alwaysMake = false → B.Unmade d)
  Sure _ := False
  Good o w := B.origin.IsDirectory o → B.origin.Made o w.now.files
  Inv := B.Times
  first := .first hB htimed
  sees hb h hst hs := h.sees hwatch hb hst hs
  emit _ h := ⟨h.timed,h.dirs,h.class_,h.own,h.others,h.getters⟩
  keeps {w c o} h hfiles hd := by
    rw [hfiles]
    exact h hd
  records _ h := h
  resume _ h hrun _ _ _ hres := by
    obtain ⟨h',hdone,hkeeps⟩ := h.resume hB hcmd hmd hrun hres
    exact ⟨h',hdone,fun q _ _ => hkeeps q⟩
  missing {w o} hb h hk _ := by
    refine ⟨?_,fun _ => ⟨fun _ _ => trivial,fun _ _ _ => trivial⟩,fun h => h.elim⟩
    unfold missing
    split
    · exact h
    · rw [snd_run_bind_pure]
      exact exists_times h
  compare hb h ht _ _ hl hstill _ _ := wp_mono (h.compare hB hb ht hl fun n hn => (hstill n hn).1)
    fun _ _ hw => ⟨hw.1,hw.2,fun hs => hs.elim⟩
  reading _ h _ _ := exists_times h
  fresh {m o} ht hB' _ hclean := by
    refine ⟨fun hA => .mk (fun hd n hn => ?_) fun hd n hn d hd' => ?_,(fun hA => by rw [hB'] at hA; cases hA)⟩
    · obtain ⟨d,ht,hdir,_⟩ := hclean n hn hd
      exact ⟨d,ht,hdir⟩
    · obtain ⟨d',ht,_,hun⟩ := hclean n hn hd
      obtain rfl := Value.obj.inj (ht.1.symm.trans hd'.1)
      exact hun hA
  bound {m o} ht hA hc := by
    refine ⟨(fun h => by rw [hA] at h; cases h),fun _ hd => ?_⟩
    rw [command_directory hB ht hd] at hc
    cases hc
  sure := @unsure E B

end Build

/-- A directory target is made before it is used and by the end of the build, if it is a directory
from the beginning, if `-B` is given, or if it leads to a dependency that is no directory target. -/
theorem directory_made (E : Env) (hslots : 1 ≤ E.slots) (c : Core) (hc : c.DirGraph)
    (htimed : c.files.Timed)
    (hcmd : ∀ f name i n fs, FileSystem.Grows fs ((E.resume f name i n).effect fs))
    (hmd : ∀ path fs fs', E.md path fs = some fs' → fs'.isDir path = true ∧ FileSystem.Grows fs fs')
    (o : ObjId) (hd : c.IsDirectory o)
    (hfine : c.Made o c.files ∨ E.flags.alwaysMake = true ∨ c.Leaves o) : MakesDirectory E c o := by
  have hr := hc.rooted hslots
  have hwatch : ∀ k ∈ Core.watched, k ∈ (hc.build hslots).guarded := by
    intro k hk
    exact Finset.mem_union_right _ (List.mem_toFinset.mpr hk)
  let S := (hc.build hslots).directorySigns hc hwatch htimed hcmd hmd
  have hdone := S.updateGoals_done hr
  have hmade : ∀ {c' : Core} {t n}, S.Inv ⟨c',t⟩ → (∀ m q, (hc.build hslots).Target m q →
      c'.rawget q "status" = Status.updated.toValue → S.Good q ⟨c',t⟩) → S.done c' n →
      c.registry n = .obj o → c.Made o c'.files := by
    intro c' t n hinv hgood hn hreg
    rcases hn with ⟨hnil,_⟩ | ⟨hp,hs⟩ | ⟨hp,hstill,_⟩
    · exact absurd (hnil.symm.trans hreg) (by simp)
    · have hg := hgood _ _ hp hs
      rw [Value.obj.inj (hp.1.symm.trans hreg)] at hg
      exact hg hd
    · rw [Value.obj.inj (hp.1.symm.trans hreg)] at hstill
      have hB : E.flags.alwaysMake = false := by
        by_contra hB
        exact hstill.2 (by simpa using hB) hd
      rcases hfine with hm | hA | hl
      · intro k hk
        have hdir : c.files k = .dir := by simpa [FileSystem.isDir] using hm k hk
        have hinv' : Build.Times (hc.build hslots) ⟨c',t⟩ := hinv
        have hdir' : c'.files k = .dir := hinv'.dirs k hdir
        simp [FileSystem.isDir,hdir']
      · rw [hB] at hA
        cases hA
      · exact absurd hl ((hstill.1 hB).not_leaves hd)
  refine ⟨fun x hx p i hxe n hn hreg => ?_,fun hret hw => ?_⟩
  · obtain ⟨t,hinv,hgood,_,hdeps⟩ := hdone.1.begun x hx p i hxe
    exact hmade hinv hgood (hdeps n hn) hreg
  · obtain ⟨n,ht,hn⟩ := Build.Signs.done_of_wants hdone.1 (hdone.2 hret) hw
    exact hmade (t := (updateGoals E ⟨c,[]⟩).2.trace) hdone.1.inv hdone.1.good hn ht.1

/-- `app` depends on the directory `C:/out`, which is not there. -/
def Core.withDirectory : Core := (([.assign "app" (.fn (.user 0)),.dirTarget "C:/out",
  .dependsOn (.obj 3) [.obj 4]] : List Decl).foldl
  (Session.after Env.plain) ⟨Core.init fun p => if p = "C:/" then .dir else .absent,[]⟩).core

/-- The command of `app` is started although the directory is not there. -/
theorem directory_missing : ¬MakesDirectory Env.plain Core.withDirectory 4 := by
  intro h
  have hbad : ∃ x ∈ (updateGoals Env.plain ⟨Core.withDirectory,[]⟩).2.trace, x.1 = .start 3 1 ∧
      x.2.files.isDir "C:/out" = false := by decide +kernel
  obtain ⟨x,hx,hstart,hfiles⟩ := hbad
  have hmade := h.used x hx 3 1 hstart "C:/out" (by decide +kernel) (by decide +kernel) "C:/out" (by decide +kernel)
  rw [hfiles] at hmade
  cases hmade

theorem rawget_withDirectory (o : ObjId) (k : String) : Core.withDirectory.rawget o k =
    if o = 3 then (if k = "name" then .str "app" else if k = "deps" then .names {"C:/out"} else
      if k = "command" then .fn (.user 0) else .nil) else
    if o = 4 then (if k = "name" then .str "C:/out" else if k = "deps" then .names ∅ else .nil) else
      (Core.init fun _ => .absent).rawget o k := by
  let c := ((Core.init fun _ => .absent).alloc ((Core.init fun _ => .absent).instance none
    (Function.update noFields "command" (.fn (.user 0))))).register "app" 3
  let d := (c.alloc (c.instance (some dirClass) noFields)).register "C:/out" 4
  have h : Core.withDirectory.heap = (d.rawset 3 "deps" (.names {"C:/out"})).heap := rfl
  rw [Core.rawget,h]
  change (d.rawset 3 "deps" (.names {"C:/out"})).rawget o k = _
  rw [Core.rawget_rawset,Core.rawget_register]
  by_cases h3 : o = 3
  · subst h3
    have hr : (c.alloc (c.instance (some dirClass) noFields)).rawget 3 k = Core.withCommand.rawget 3 k := rfl
    rw [hr,rawget_withCommand]
    by_cases hn : k = "name"
    · simp [hn]
    · by_cases hd : k = "deps" <;> simp [hn,hd]
  · rw [if_neg (fun h => h3 h.1),if_neg h3]
    by_cases h4 : o = 4
    · subst h4
      have hr : (c.alloc (c.instance (some dirClass) noFields)).rawget 4 k =
        Function.update noFields "deps" (.names ∅) k := rfl
      rw [hr,Function.update_apply]
      by_cases hn : k = "name" <;> simp [hn,noFields]
    · have hr : (c.alloc (c.instance (some dirClass) noFields)).rawget o k = c.rawget o k := by
        rw [Core.rawget,Core.heap_alloc_of_ne _ _ h4]
        rfl
      rw [if_neg (fun h => h4 h.1),if_neg h4,hr]
      have hc : c.rawget o k = Core.withCommand.rawget o k := rfl
      rw [hc,rawget_withCommand,if_neg h3]

theorem lacks_withDirectory (k : String) (hk : k ∉ ["name","deps","command","exists","timestamp"])
    (o : ObjId) : Core.withDirectory.rawget o k = .nil := by
  have hlacks := lacks_withCommand k hk
  simp only [List.mem_cons,List.not_mem_nil,or_false,not_or] at hk
  rw [rawget_withDirectory]
  by_cases h3 : o = 3
  · simp [h3,hk.1,hk.2.1,hk.2.2.1]
  · by_cases h4 : o = 4
    · simp [h4,hk.1,hk.2.1]
    · rw [if_neg h3,if_neg h4,← hlacks o,rawget_withCommand,if_neg h3]

theorem registry_withDirectory {m : String} {o : ObjId} (hm : Core.withDirectory.registry m = .obj o) :
    o = 3 ∨ o = 4 ∧ m = "C:/out" ∨ o = mtTable := by
  have hreg : Core.withDirectory.registry =
    Function.update Core.withCommand.registry "C:/out" (.obj 4) := rfl
  rw [hreg] at hm
  by_cases ho : m = "C:/out"
  · subst ho
    exact .inr (.inl ⟨(Value.obj.inj hm).symm,rfl⟩)
  · rw [Function.update_of_ne ho] at hm
    rcases registry_withCommand hm with h | h
    · exact .inl h
    · exact .inr (.inr h)

theorem deps_withDirectory (o : ObjId) : Core.withDirectory.deps o = if o = 3 then {"C:/out"} else ∅ := by
  unfold Core.deps
  rw [rawget_withDirectory]
  by_cases h3 : o = 3
  · simp [h3]
  · by_cases h4 : o = 4
    · simp [h4]
    · simp only [if_neg h3,if_neg h4]
      unfold Core.init Core.rawget
      dsimp only
      split_ifs <;> rfl

theorem ready_withDirectory : Core.withDirectory.Ready := by
  have hfeeds : ∀ {o p}, Core.withDirectory.Feeds o p → o = 3 ∧ p = 4 := by
    rintro o p ⟨m,hm,hp⟩
    rw [deps_withDirectory] at hm
    split_ifs at hm with h
    · obtain rfl := Finset.mem_singleton.mp hm
      exact ⟨h,(Value.obj.inj hp).symm⟩
    · cases hm
  have hmoves : ∀ d c, c.Sound → (declare Env.plain d c).2.Sound :=
    fun d c hc => (moves_declare Env.plain d c hc).1
  constructor
  · exact hmoves _ _ (hmoves _ _ (hmoves _ _ (Core.sound_init _)))
  · exact fun o ho => by cases (show Value.fn .defined = .obj o from ho)
  · intro m o hm ht
    rcases registry_withDirectory hm with rfl | ⟨rfl,_⟩ | rfl
    · exact ⟨"app",rfl,rfl,by decide,by decide⟩
    · exact ⟨"C:/out",rfl,rfl,by decide,by decide⟩
    · cases ht
  · intro o ho
    obtain ⟨p,hop,hpo⟩ := Relation.TransGen.head'_iff.mp ho
    obtain ⟨rfl,rfl⟩ := hfeeds hop
    rcases Relation.ReflTransGen.cases_head hpo with h | ⟨q,hq,_⟩
    · cases h
    · cases (hfeeds hq).1
  · exact lacks_withDirectory "status" (by decide)
  · exact fun o => ⟨by rw [lacks_withDirectory _ (by decide)]; simp,fun d => by rw [lacks_withDirectory _ (by decide)]; simp⟩
  · rfl
  · rfl

/-- The commands of `Env.plain` with `-B`. -/
def Env.remaking : Env := { Env.plain with flags := ⟨true,false,false⟩ }

theorem regular_withDirectory : Core.withDirectory.Regular where
  ready := ready_withDirectory
  safe := .inl rfl
  callable := by
    refine ⟨rfl,fun m o hm p hp => ?_⟩
    rcases registry_withDirectory hm with rfl | ⟨rfl,_⟩ | rfl
    · obtain rfl := List.mem_singleton.mp hp
      exact .inl ⟨.user 0,rfl⟩
    · rcases List.mem_pair.mp hp with rfl | rfl
      · exact .inr rfl
      · exact .inl ⟨.dirCommand,rfl⟩
    · obtain rfl := List.mem_singleton.mp hp
      exact .inr rfl
  method _ _ _ p _ := lacks_withDirectory _ (by decide) p
  unfailed := lacks_withDirectory _ (by decide)
  roots m o hm _ p hp n hn := by
    have hp' : p = dirClass := by
      rcases registry_withDirectory hm with rfl | ⟨rfl,_⟩ | rfl
      · cases hp
      · exact List.mem_singleton.mp hp
      · cases hp
    subst hp'
    rcases registry_withDirectory hn.1 with h | ⟨h,_⟩ | h <;> cases h

theorem dirGraph_withDirectory : Core.withDirectory.DirGraph where
  toRegular := regular_withDirectory
  newer := rfl
  chain m o hm ht := by
    rcases registry_withDirectory hm with rfl | ⟨rfl,_⟩ | rfl
    · exact .inl rfl
    · exact .inr (.inr rfl)
    · cases ht
  classes m o hm ht := by
    rcases registry_withDirectory hm with rfl | ⟨rfl,_⟩ | rfl
    · decide
    · decide
    · cases ht
  plain o hd hp k hk := by
    have hne : k ≠ "name" ∧ k ≠ "deps" ∧ k ≠ "command" := by fin_cases hk <;> decide
    rw [rawget_withDirectory]
    by_cases h3 : o = 3
    · simp [h3,hne]
    · by_cases h4 : o = 4
      · simp [h4,hne]
      · simp [h3,h4,Core.init,Core.rawget,hd,hp,noFields]
  getters k hk o := lacks_withDirectory k (by fin_cases hk <;> decide) o
  phony := rfl
  dir := ⟨rfl,rfl⟩
  command m o hm ht hd := by
    rcases registry_withDirectory hm with rfl | ⟨rfl,_⟩ | rfl
    · exact absurd (show dirClass ∈ [] from hd) List.not_mem_nil
    · rfl
    · cases ht

theorem directory_made_out : MakesDirectory Env.remaking Core.withDirectory 4 := by
  refine directory_made Env.remaking (by decide) Core.withDirectory dirGraph_withDirectory
    (fun p t hp => ?_) (fun f name i n fs => ⟨fun _ => id,id⟩) (fun path fs fs' h => ?_) 4
    (List.mem_singleton.mpr rfl) (.inr (.inl rfl))
  · change (if p = "C:/" then Entry.dir else .absent) = .file t at hp
    split_ifs at hp
  obtain rfl := Option.some.inj h
  refine ⟨by simp [FileSystem.isDir],fun p hp => ?_,fun ht p t hp => ?_⟩
  · by_cases h : p = path
    · simp [h]
    · rwa [Function.update_of_ne h]
  · by_cases h : p = path
    · simp [h] at hp
    · rw [Function.update_of_ne h] at hp
      exact ht p t hp

end Presto
