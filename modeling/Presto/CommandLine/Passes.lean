import Presto.CommandLine.Items

/-! What the two passes over the command line do, item by item. -/
namespace Presto
open Program

/-- Items that `parse_commandline` can execute in both passes. -/
def Item.Plain : Item → Prop
  | .flag _ | .jobs _ | .assign _ => True
  | .withArg c _ => c ∈ ['e','f','l']
  | _ => False

instance (i : Item) : Decidable i.Plain := by
  unfold Item.Plain
  cases i <;> infer_instance

/-- Items as `parse_commandline` makes them. -/
def Item.Formed : Item → Prop
  | .withArg c _ => c ∈ ['C','e','f','l']
  | .assign a => '=' ∈ a
  | .goal a => '=' ∉ a
  | _ => True

/-- The effect of an item on the settings. -/
def applyItem (S : System) (s : Settings) : Item → Settings
  | .flag c => s.setFlag ((flagName c).getD "")
  | .withArg c arg => if c = 'C' then { s with cwd := S.chdir s.cwd arg } else s
  | .jobs n => s.setMaxJobs (atoi (n.getD []))
  | .assign a => { s with env := Function.update s.env (assignment a).1 (assignment a).2 }
  | _ => s

/-- User code that succeeds. -/
def System.Succeeds (S : System) : Prop := ∀ code s, (S.run code s).2 = 0

/-- User code that leaves `make.goals` alone. -/
def System.KeepsGoals (S : System) : Prop := ∀ code s, (S.run code s).1.goals = s.goals

/-- User code that leaves the settings alone. -/
def System.KeepsSettings (S : System) : Prop := ∀ code s, (S.run code s).1.settings = s.settings

/-- User code that does nothing. -/
def System.idle : System := ⟨fun _ s => (s,0),fun _ path => path⟩

section
variable {S : System} {execute : Bool}

theorem formed_cutCluster (next : Option Arg) (sw : Arg) :
    ∀ i ∈ (cutCluster next sw).1, i.Formed := by
  induction sw with
  | nil =>
    intro i hi
    cases hi
  | cons c sw ih =>
    unfold cutCluster
    split_ifs with hf hv ha
    · intro i hi
      rcases List.mem_cons.mp hi with rfl | hi
      · trivial
      · exact ih i hi
    · intro i hi
      rw [List.mem_singleton.mp hi]
      trivial
    · cases getArg sw next with
      | none =>
        intro i hi
        rw [List.mem_singleton.mp hi]
        trivial
      | some r =>
        intro i hi
        rw [List.mem_singleton.mp hi]
        unfold itemWithArg
        split_ifs with hj
        · trivial
        · simp only [takesArg,List.mem_cons,List.not_mem_nil,or_false,decide_eq_true_eq] at ha
          simp only [Item.Formed,List.mem_cons,List.not_mem_nil,or_false]
          grind
    · intro i hi
      rw [List.mem_singleton.mp hi]
      trivial

theorem formed_parameterItem (a : Arg) : (parameterItem a).Formed := by
  unfold parameterItem
  split_ifs with h
  · exact h
  · exact h

theorem formed_cutArgs (parsing : Bool) (argv : List Arg) : ∀ i ∈ cutArgs parsing argv, i.Formed := by
  induction hn : argv.length using Nat.strong_induction_on generalizing argv parsing with
  | _ n ih =>
    cases argv with
    | nil =>
      intro i hi
      unfold cutArgs at hi
      cases hi
    | cons a argv =>
      have hlen : argv.length < n := by simp at hn; omega
      unfold cutArgs
      split_ifs
      · exact ih _ hlen false argv rfl
      · intro i hi
        rw [List.mem_singleton.mp hi]
        trivial
      · intro i hi
        rcases List.mem_append.mp hi with hi | hi
        · exact formed_cutCluster _ _ i hi
        · revert hi
          cases (cutCluster argv.head? a.tail).2 with
          | left => exact fun hi => by cases hi
          | next => exact ih _ hlen true argv rfl i
          | used =>
            cases argv with
            | nil => exact fun hi => by cases hi
            | cons b rest => exact ih _ (by simp at hn; omega) true rest rfl i
      · intro i hi
        rcases List.mem_cons.mp hi with rfl | hi
        · exact formed_parameterItem a
        · exact ih _ hlen parsing argv rfl i hi

theorem upper_upper (k : Arg) : upper (upper k) = upper k := by
  simp [upper]

theorem settings_setEnv (s : Shell) (a : Arg) :
    (s.setEnv (assignment a).1 (assignment a).2).settings = applyItem S s.settings (.assign a) := by
  have hk : upper (assignment a).1 = (assignment a).1 := upper_upper _
  unfold Shell.setEnv
  simp only [hk,ite_self]
  rfl

/-- What a pass changes and what it keeps; only the second pass runs code. -/
structure After (S : System) (execute : Bool) (s s' : Shell) (settings : Settings) : Prop where
  settings : (execute = true → S.KeepsSettings) → s'.settings = settings
  goals : (execute = true → S.KeepsGoals) → s'.goals = s.goals
  status : s'.status = s.status
  printed : s'.printed = s.printed

theorem run_handleStatus (hS : S.Succeeds) (code : Code) (after : Shell → Shell) (e : ClusterEnd)
    (s : Shell) : handleStatus S code after e s =
      (.ret e,after { (S.run code s).1 with status := 0, printed := s.printed }) := by
  unfold handleStatus
  rw [run_bind_gets]
  simp only [id,hS code s]
  rfl

theorem runItem_plain (hS : execute = true → S.Succeeds) {i : Item} (hi : i.Plain) (hf : i.Formed)
    {s : Shell} (hs : s.status = 0) :
    ∃ s', runItem S execute i s = (.ret .next,s') ∧ After S execute s s' (applyItem S s.settings i) := by
  cases i with
  | flag c => exact ⟨_,rfl,fun _ => rfl,fun _ => rfl,rfl,rfl⟩
  | withArg c arg =>
    simp only [Item.Plain,List.mem_cons,List.not_mem_nil,or_false] at hi
    have happly : applyItem S s.settings (.withArg c arg) = s.settings := by
      rcases hi with rfl | rfl | rfl <;> rfl
    cases execute with
    | false =>
      have hskip : runItem S false (.withArg c arg) s = (.ret .next,s) := by
        rcases hi with rfl | rfl | rfl <;> rfl
      exact ⟨s,hskip,fun _ => happly.symm,fun _ => rfl,rfl,rfl⟩
    | true =>
      have hcode : ∃ code after, runItem S true (.withArg c arg) = handleStatus S code after .next ∧
          ∀ s, (after s).settings = s.settings ∧ (after s).goals = s.goals ∧
            (after s).status = s.status ∧ (after s).printed = s.printed := by
        rcases hi with rfl | rfl | rfl
        · exact ⟨.statement arg,id,rfl,fun s => ⟨rfl,rfl,rfl,rfl⟩⟩
        · exact ⟨.file arg,fun s => { s with loadedFile := true },rfl,fun s => ⟨rfl,rfl,rfl,rfl⟩⟩
        · exact ⟨.library arg,id,rfl,fun s => ⟨rfl,rfl,rfl,rfl⟩⟩
      obtain ⟨code,after,hrun,hafter⟩ := hcode
      refine ⟨_,by rw [hrun,run_handleStatus (hS rfl)],fun hk => ?_,fun hg => ?_,?_,?_⟩
      · rw [happly,(hafter _).1,hk rfl code s]
      · rw [(hafter _).2.1,hg rfl code s]
      · rw [(hafter _).2.2.1,hs]
      · rw [(hafter _).2.2.2]
  | jobs n => exact ⟨_,rfl,fun _ => rfl,fun _ => rfl,rfl,rfl⟩
  | assign a =>
    have hp : parameter a s = (.ret (),s.setEnv (assignment a).1 (assignment a).2) := by
      unfold parameter
      rw [if_pos (show '=' ∈ a from hf)]
      rfl
    exact ⟨_,run_bind_of_ret hp _,fun _ => settings_setEnv s a,fun _ => rfl,rfl,rfl⟩
  | _ => exact hi.elim

theorem runItems_plain (hS : execute = true → S.Succeeds) {l : List Item} (hp : ∀ i ∈ l, i.Plain)
    (hf : ∀ i ∈ l, i.Formed) {s : Shell} (hs : s.status = 0) :
    ∃ s', runItems S execute l s = (.ret .next,s') ∧
      After S execute s s' (l.foldl (applyItem S) s.settings) := by
  induction l generalizing s with
  | nil => exact ⟨s,rfl,fun _ => rfl,fun _ => rfl,rfl,rfl⟩
  | cons i l ih =>
    obtain ⟨s₁,h₁,ha₁⟩ := runItem_plain hS (hp i List.mem_cons_self) (hf i List.mem_cons_self) hs
    obtain ⟨s₂,h₂,ha₂⟩ := ih (fun j hj => hp j (List.mem_cons_of_mem i hj))
      (fun j hj => hf j (List.mem_cons_of_mem i hj)) (ha₁.status.trans hs)
    refine ⟨s₂,?_,fun hk => ?_,fun hg => (ha₂.goals hg).trans (ha₁.goals hg),
      ha₂.status.trans ha₁.status,ha₂.printed.trans ha₁.printed⟩
    · rw [runItems,run_bind_of_ret h₁]
      exact h₂
    · rw [ha₂.settings hk,ha₁.settings hk]
      rfl

/-- In the first pass there is no `make.goals`, and a goal is an error of Lua. -/
theorem runItem_goal_none {a : Arg} (hf : '=' ∉ a) {s : Shell} (hg : s.goals = none) :
    runItem S execute (.goal a) s =
      (.raise "bad argument #9 to '?' (table expected, got nil)",s) := by
  have hraise : parameter a s = (.raise "bad argument #9 to '?' (table expected, got nil)",s) := by
    unfold parameter
    rw [if_neg hf,run_bind_gets,id,hg]
    rfl
  exact run_bind_of_raise hraise _

/-- An item that is not plain ends the first pass with an error of Lua or a status. -/
theorem runItems_not_plain {l : List Item} (hp : ¬∀ i ∈ l, i.Plain)
    (hf : ∀ i ∈ l, i.Formed) {s : Shell} (hs : s.status = 0) (hg : s.goals = none) :
    wp (runItems S false l) (fun o s' => (∀ e, o ≠ .ret e) ∨
      o = .ret .left ∧ s'.status ≠ 0 ∧ s'.goals = none) s := by
  have hnocode : ∀ {P : Prop}, false = true → P := fun h => absurd h Bool.false_ne_true
  induction l generalizing s with
  | nil => exact absurd (fun i hi => by cases hi) hp
  | cons i l ih =>
    unfold runItems
    have hform := hf i List.mem_cons_self
    by_cases hi : i.Plain
    · obtain ⟨s₁,h₁,ha₁⟩ := runItem_plain (S := S) hnocode hi hform hs
      have hrest : ¬∀ j ∈ l, j.Plain := by
        intro hl
        apply hp
        intro j hj
        rcases List.mem_cons.mp hj with rfl | hj
        · exact hi
        · exact hl j hj
      apply wp_bind_ret h₁
      exact ih hrest (fun j hj => hf j (List.mem_cons_of_mem i hj)) (ha₁.status.trans hs)
        ((ha₁.goals hnocode).trans hg)
    · cases i with
      | withArg c arg =>
        simp only [Item.Plain,Item.Formed,List.mem_cons,List.not_mem_nil,or_false] at hi hform
        obtain rfl := hform.resolve_right hi
        exact .inl fun e he => by cases he
      | goal a => exact wp_bind_raise (runItem_goal_none hform hg) (.inl fun e he => by cases he)
      | version => exact .inr ⟨rfl,Nat.one_ne_zero,hg⟩
      | usage => exact .inr ⟨rfl,Nat.one_ne_zero,hg⟩
      | _ => exact absurd trivial hi

/-- A pass over plain items. -/
theorem parse_plain (hS : execute = true → S.Succeeds) {argv : List Arg}
    (hp : ∀ i ∈ cutArgs true argv, i.Plain) {s : Shell} (hs : s.status = 0) :
    ∃ s', parseCommandline S execute argv s = (.ret (),s') ∧
      After S execute s s' ((cutArgs true argv).foldl (applyItem S) s.settings) := by
  obtain ⟨s',h,ha⟩ := runItems_plain hS hp (formed_cutArgs true argv) hs
  refine ⟨s',?_,ha⟩
  unfold parseCommandline
  rw [parseArgs_eq,run_bind_of_ret h]
  rfl

theorem run_runCode (hS : S.Succeeds) (code : Code) (s : Shell) : runCode S code s =
    (.ret (),{ (S.run code s).1 with status := 0, printed := s.printed }) := by
  unfold runCode
  rw [run_bind_gets]
  simp only [id,hS code s]
  rfl

/-- With plain items both passes go through, and the goals are those of mkinit.lua: none. -/
theorem pmain_plain (hS : S.Succeeds) {argv : List Arg} (hp : ∀ i ∈ cutArgs true argv, i.Plain)
    (env : Arg → Option Arg) (cwd : Arg) :
    ∃ s', pmain S argv (Shell.start env cwd) = (.ret (),s') ∧ s'.status = 0 ∧
      (S.KeepsGoals → s'.goals = some ∅) ∧
      (S.KeepsSettings → s'.settings = (cutArgs true argv).foldl (applyItem S)
        ((cutArgs true argv).foldl (applyItem S) (Shell.start env cwd).settings)) := by
  have hnocode : ∀ {P : Prop}, false = true → P := fun h => absurd h Bool.false_ne_true
  obtain ⟨s₁,h₁,ha₁⟩ := parse_plain (S := S) hnocode hp (s := Shell.start env cwd) rfl
  let s₂ : Shell := { s₁ with goals := some ∅, metatable := true }
  have hm : mkinit s₁ = (.ret (),s₂) := rfl
  let s₃ : Shell := { (S.run .site s₂).1 with status := 0, printed := s₂.printed }
  let s₄ : Shell := { (S.run .init s₃).1 with status := 0, printed := s₃.printed }
  obtain ⟨s₅,h₅,ha₅⟩ := parse_plain (show true = true → S.Succeeds from fun _ => hS) hp (s := s₄) rfl
  refine ⟨s₅,?_,ha₅.status,fun hg => ?_,fun hk => ?_⟩
  · unfold pmain
    have hzero : ¬(id s₁).status ≠ 0 := not_not.mpr ha₁.status
    rw [run_bind_of_ret h₁,run_bind_gets,run_ite,if_neg hzero,run_bind_of_ret hm,
      run_bind_of_ret (run_runCode hS _ _),run_bind_gets,run_ite,if_neg (by simp),
      run_bind_of_ret (run_runCode hS _ _),run_bind_gets,run_ite,if_neg (by simp)]
    exact h₅
  · calc s₅.goals = s₄.goals := ha₅.goals fun _ => hg
      _ = s₃.goals := hg .init s₃
      _ = s₂.goals := hg .site s₂
  · have hcode : s₄.settings = s₁.settings := (hk .init s₃).trans (hk .site s₂)
    rw [ha₅.settings fun _ => hk,hcode,ha₁.settings hnocode]

/-- Otherwise there is an error of Lua in the first pass, or `pmain` ends without goals. -/
theorem pmain_not_plain {argv : List Arg} (hp : ¬∀ i ∈ cutArgs true argv, i.Plain)
    (env : Arg → Option Arg) (cwd : Arg) :
    wp (pmain S argv) (fun o s' => (∀ u, o ≠ .ret u) ∨ s'.status ≠ 0 ∧ s'.goals = none)
      (Shell.start env cwd) := by
  have hpass : wp (parseCommandline S false argv) (fun o s' => (∀ u, o ≠ .ret u) ∨
      o = .ret () ∧ s'.status ≠ 0 ∧ s'.goals = none) (Shell.start env cwd) := by
    unfold parseCommandline
    rw [parseArgs_eq]
    apply wp_bind_of (runItems_not_plain hp (formed_cutArgs true argv) rfl rfl)
    · rintro e s' (h | ⟨_,h⟩)
      · exact absurd rfl (h e)
      · exact .inr ⟨rfl,h⟩
    · exact fun _ _ _ => .inl fun u hu => by cases hu
    · exact fun _ _ => .inl fun u hu => by cases hu
  unfold pmain
  apply wp_bind_of hpass
  · rintro u s' (h | ⟨_,hs,hg⟩)
    · exact absurd rfl (h u)
    · rw [wp_bind_gets,wp_ite,if_pos (by simpa using hs)]
      exact .inr ⟨hs,hg⟩
  · exact fun _ _ _ => .inl fun u hu => by cases hu
  · exact fun _ _ => .inl fun u hu => by cases hu

/-- `pmain` ends well only for plain items. -/
theorem plain_of_pmain {argv : List Arg} {env : Arg → Option Arg} {cwd : Arg}
    (hret : (pmain S argv (Shell.start env cwd)).1 = .ret ())
    (hend : (pmain S argv (Shell.start env cwd)).2.status = 0 ∨
      (pmain S argv (Shell.start env cwd)).2.goals ≠ none) :
    ∀ i ∈ cutArgs true argv, i.Plain := by
  by_contra hp
  rcases pmain_not_plain hp env cwd with h | ⟨hs,hg⟩
  · exact h () hret
  · exact hend.elim (fun h => hs h) fun h => h hg

/-- What an item writes to a flag, to the slots and to a variable. -/
def Item.flagWrite (name : String) : Item → Option Bool
  | .flag c => if (flagName c).getD "" = name then some true else none
  | _ => none

def Item.slotsWrite : Item → Option ℤ
  | .jobs n => some (if atoi (n.getD []) = 0 then 1024 else atoi (n.getD []))
  | _ => none

def Item.envWrite (k : Arg) : Item → Option (Option Arg)
  | .assign a => if (assignment a).1 = k then some (assignment a).2 else none
  | _ => none

/-- To execute plain items twice is to execute them once. -/
theorem foldl_applyItem_twice {l : List Item} (hp : ∀ i ∈ l, i.Plain) (s : Settings) :
    l.foldl (applyItem S) (l.foldl (applyItem S) s) = l.foldl (applyItem S) s := by
  have hdir : ∀ i ∈ l, ∀ arg, i ≠ .withArg 'C' arg := by
    rintro i hi arg rfl
    exact absurd (hp _ hi) (by simp [Item.Plain])
  apply Settings.ext
  · ext name
    have hflag := foldl_twice (applyItem S) (fun s => decide (name ∈ s.flags))
      (Item.flagWrite name) l (by
        intro i _ s
        cases i with
        | flag c =>
          by_cases hc : (flagName c).getD "" = name
          · simp [applyItem,Settings.setFlag,Item.flagWrite,hc]
          · simp [applyItem,Settings.setFlag,Item.flagWrite,hc,Ne.symm hc]
        | withArg c arg =>
          simp only [applyItem,Item.flagWrite,Option.getD_none]
          split_ifs <;> rfl
        | _ => rfl) s
    simpa using hflag
  · exact foldl_twice (applyItem S) (fun s => s.slots) Item.slotsWrite l (by
      intro i _ s
      cases i with
      | withArg c arg =>
        simp only [applyItem,Item.slotsWrite,Option.getD_none]
        split_ifs <;> rfl
      | _ => rfl) s
  · funext k
    exact foldl_twice (applyItem S) (fun s => s.env k) (Item.envWrite k) l (by
      intro i _ s
      cases i with
      | assign a =>
        by_cases hk : (assignment a).1 = k
        · simp [applyItem,Item.envWrite,← hk]
        · simp [applyItem,Item.envWrite,hk,Ne.symm hk]
      | withArg c arg =>
        simp only [applyItem,Item.envWrite,Option.getD_none]
        split_ifs <;> rfl
      | _ => rfl) s
  · exact foldl_twice (applyItem S) (fun s => s.cwd) (fun _ => none) l (by
      intro i hi s
      cases i with
      | withArg c arg =>
        have hc : c ≠ 'C' := by
          rintro rfl
          exact hdir _ hi arg rfl
        simp [applyItem,hc]
      | _ => rfl) s

end
end Presto
