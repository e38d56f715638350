import Presto.CommandLine.Passes

/-! The command line read after the usage text, and the usage errors that are to be reported,
against what `parse_commandline` makes of it. -/
namespace Presto
open Program

def isNumber (a : Arg) : Bool := a ≠ [] && a.all Char.isDigit

/-- The items of a cluster: the number after `-j` is optional, and an unknown letter or a missing
argument is a usage error. -/
def readCluster (next : Option Arg) : Arg → List Item × ClusterEnd
  | [] => ([],.next)
  | c::sw =>
    if c ∈ ['B','d','k','n','q','Q'] then (.flag c::(readCluster next sw).1,(readCluster next sw).2)
    else if c = 'v' then ([.version],.left)
    else if c ∈ ['C','e','f','l'] then
      if sw ≠ [] then ([.withArg c sw],.next)
      else
        match next with
        | some arg => ([.withArg c arg],.used)
        | none => ([.usage],.left)
    else if c = 'j' then
      if isNumber sw then ([.jobs (some sw)],.next)
      else if sw = [] ∧ (next.any isNumber) = true then ([.jobs next],.used)
      else (.jobs none::(readCluster next sw).1,(readCluster next sw).2)
    else ([.usage],.left)

def readArgs : Bool → List Arg → List Item
  | _,[] => []
  | parsing,a::argv =>
    if parsing = true ∧ a.head? = some '-' then
      if a.tail.head? = some '-' then
        if a.tail.tail = [] then readArgs false argv else [.usage]
      else
        (readCluster argv.head? a.tail).1 ++
          match (readCluster argv.head? a.tail).2 with
          | .left => []
          | .next => readArgs true argv
          | .used =>
            match argv with
            | [] => []
            | _::rest => readArgs true rest
    else parameterItem a::readArgs parsing argv

example : readArgs true ["-kj".toList,"4".toList,"A=b".toList,"all".toList] =
    [.flag 'k',.jobs (some "4".toList),.assign "A=b".toList,.goal "all".toList] := by decide

/-- `parse_commandline` cuts the command line as it is read, and either pass prints the usage text
exactly if there is a usage error. In the second pass user code succeeds and leaves `make.goals`
alone. -/
structure ReadsUsage (argv : List Arg) : Prop where
  items : cutArgs true argv = readArgs true argv
  first : ∀ S env cwd, .usage ∈ (parseCommandline S false argv (Shell.start env cwd)).2.printed ↔
    .usage ∈ readArgs true argv
  second : ∀ (S : System) (s : Shell), S.Succeeds → S.KeepsGoals → s.status = 0 → s.goals ≠ none →
    s.printed = [] → (.usage ∈ (parseCommandline S true argv s).2.printed ↔
      .usage ∈ readArgs true argv)

/-- Items that a pass goes beyond, with or without `make.goals`. -/
def Item.Goes (goals : Bool) : Item → Prop
  | .goal _ => goals = true
  | i => i.Plain

section
variable {S : System} {execute : Bool} {next : Option Arg} {argv : List Arg}

theorem flagName_isSome (c : Char) :
    (flagName c).isSome = true ↔ c ∈ ['B','d','k','n','q','Q'] := by
  unfold flagName
  split <;> simp_all

/-- `parse_commandline` gives an argument to every `-j`. -/
theorem jobs_notMem_cutCluster (next : Option Arg) (sw : Arg) :
    .jobs none ∉ (cutCluster next sw).1 := by
  induction sw with
  | nil => simp [cutCluster]
  | cons c sw ih =>
    unfold cutCluster
    split_ifs with hf hv ha
    · simpa using ih
    · simp
    · cases getArg sw next with
      | none => simp
      | some r =>
        simp only [itemWithArg,List.mem_singleton]
        split_ifs <;> simp
    · simp

theorem jobs_notMem_cutArgs (parsing : Bool) (argv : List Arg) :
    .jobs none ∉ cutArgs parsing argv := by
  induction hn : argv.length using Nat.strong_induction_on generalizing argv parsing with
  | _ n ih =>
    cases argv with
    | nil =>
      unfold cutArgs
      simp
    | cons a argv =>
      have hlen : argv.length < n := by simp at hn; omega
      unfold cutArgs
      split_ifs
      · exact ih _ hlen false argv rfl
      · simp
      · rw [List.mem_append,not_or]
        refine ⟨jobs_notMem_cutCluster _ _,?_⟩
        cases (cutCluster argv.head? a.tail).2 with
        | left => simp
        | next => exact ih _ hlen true argv rfl
        | used =>
          cases argv with
          | nil => simp
          | cons b rest => exact ih _ (by simp at hn; omega) true rest rfl
      · have hitem : .jobs none ≠ parameterItem a := by
          unfold parameterItem
          split_ifs <;> simp
        rw [List.mem_cons,not_or]
        exact ⟨hitem,ih _ hlen parsing argv rfl⟩

/-- A cluster in which each `-j` has its number is cut as it is read. -/
theorem cutCluster_eq (sw : Arg) (h : .jobs none ∉ (readCluster next sw).1) :
    cutCluster next sw = readCluster next sw := by
  induction sw with
  | nil => rfl
  | cons c sw ih =>
    unfold cutCluster readCluster
    unfold readCluster at h
    by_cases hf : (flagName c).isSome = true
    · rw [if_pos hf,if_pos ((flagName_isSome c).mp hf)]
      rw [if_pos ((flagName_isSome c).mp hf)] at h
      rw [ih fun hm => h (List.mem_cons_of_mem _ hm)]
    rw [if_neg hf,if_neg (mt (flagName_isSome c).mpr hf)]
    rw [if_neg (mt (flagName_isSome c).mpr hf)] at h
    by_cases hv : c = 'v'
    · rw [if_pos hv,if_pos hv]
    rw [if_neg hv,if_neg hv]
    rw [if_neg hv] at h
    by_cases ha : c ∈ ['C','e','f','l']
    · have htakes : takesArg c = true := by
        simp only [takesArg,List.mem_cons,List.not_mem_nil,or_false,decide_eq_true_eq] at ha ⊢
        tauto
      have hj : c ≠ 'j' := by
        rintro rfl
        simp at ha
      rw [if_pos htakes,if_pos ha]
      unfold getArg itemWithArg
      by_cases hs : sw = []
      · cases next <;> simp [hs,hj]
      · simp [hs,hj]
    rw [if_neg ha]
    rw [if_neg ha] at h
    by_cases hj : c = 'j'
    · subst hj
      rw [if_pos rfl] at h
      rw [if_pos (show takesArg 'j' = true by decide),if_pos rfl]
      unfold getArg itemWithArg
      by_cases hn : isNumber sw = true
      · have hs : sw ≠ [] := by
          rintro rfl
          simp [isNumber] at hn
        simp [hn,hs]
      rw [if_neg hn] at h ⊢
      by_cases hnext : sw = [] ∧ next.any isNumber = true
      · obtain ⟨rfl,hany⟩ := hnext
        cases next with
        | none => cases hany
        | some n =>
          have hn : isNumber n = true := hany
          simp [hn]
      · rw [if_neg hnext] at h
        exact absurd List.mem_cons_self h
    · have htakes : ¬takesArg c = true := by
        simp only [takesArg,List.mem_cons,List.not_mem_nil,or_false,decide_eq_true_eq] at ha ⊢
        tauto
      rw [if_neg htakes,if_neg hj]

/-- So is a command line. -/
theorem cutArgs_eq (parsing : Bool) (argv : List Arg) (h : .jobs none ∉ readArgs parsing argv) :
    cutArgs parsing argv = readArgs parsing argv := by
  induction hn : argv.length using Nat.strong_induction_on generalizing argv parsing with
  | _ n ih =>
    cases argv with
    | nil =>
      unfold cutArgs readArgs
      rfl
    | cons a argv =>
      have hlen : argv.length < n := by simp at hn; omega
      unfold cutArgs readArgs
      unfold readArgs at h
      split_ifs at h ⊢
      · exact ih _ hlen false argv h rfl
      · rfl
      · rw [List.mem_append,not_or] at h
        rw [cutCluster_eq a.tail h.1]
        congr 1
        cases hend : (readCluster argv.head? a.tail).2 with
        | left => rfl
        | next =>
          rw [hend] at h
          exact ih _ hlen true argv h.2 rfl
        | used =>
          rw [hend] at h
          cases argv with
          | nil => rfl
          | cons b rest => exact ih _ (by simp at hn; omega) true rest h.2 rfl
      · rw [ih _ hlen parsing argv (fun hm => h (List.mem_cons_of_mem _ hm)) rfl]

/-- The first pass runs no code. -/
theorem runItem_false (S S' : System) (i : Item) : runItem S false i = runItem S' false i := by
  cases i <;> rfl

theorem runItems_false (S S' : System) (l : List Item) : runItems S false l = runItems S' false l := by
  induction l with
  | nil => rfl
  | cons i l ih => rw [runItems,runItems,runItem_false S S',ih]

theorem parseCommandline_false (S S' : System) (argv : List Arg) :
    parseCommandline S false argv = parseCommandline S' false argv := by
  unfold parseCommandline
  rw [parseArgs_eq,parseArgs_eq,runItems_false S S']

theorem goes_of_plain {goals : Bool} {i : Item} (hi : i.Plain) : i.Goes goals := by
  cases i with
  | goal a => exact hi.elim
  | _ => exact hi

theorem runItem_goes (hS : execute = true → S.Succeeds) (hk : execute = true → S.KeepsGoals) {i : Item}
    (hf : i.Formed) {s : Shell} (hi : i.Goes s.goals.isSome) (hs : s.status = 0) :
    ∃ s', runItem S execute i s = (.ret .next,s') ∧ s'.status = 0 ∧ s'.printed = s.printed ∧
      s'.goals.isSome = s.goals.isSome := by
  have hplain : i.Plain → ∃ s', runItem S execute i s = (.ret .next,s') ∧ s'.status = 0 ∧
      s'.printed = s.printed ∧ s'.goals.isSome = s.goals.isSome := by
    intro hp
    obtain ⟨s',h,ha⟩ := runItem_plain hS hp hf hs
    exact ⟨s',h,ha.status.trans hs,ha.printed,congrArg Option.isSome (ha.goals hk)⟩
  cases i with
  | goal a =>
    obtain ⟨goals,hgoals⟩ := Option.isSome_iff_exists.mp hi
    have hp : parameter a s = (.ret (),{ s with goals := some (insert a goals) }) := by
      unfold parameter
      rw [if_neg (show '=' ∉ a from hf),run_bind_gets,id,hgoals]
      rfl
    exact ⟨_,run_bind_of_ret hp _,hs,rfl,by simp [hgoals]⟩
  | _ => exact hplain hi

/-- The usage text is printed exactly if the pass reaches a usage error, and then it ends with a
status. -/
theorem runItems_usage (hS : execute = true → S.Succeeds) (hk : execute = true → S.KeepsGoals)
    {l : List Item} (hf : ∀ i ∈ l, i.Formed) {s : Shell} (hs : s.status = 0) (hp : .usage ∉ s.printed) :
    wp (runItems S execute l) (fun o s' =>
      (.usage ∈ s'.printed ↔ .usage ∈ l ∧ ∀ i ∈ l.takeWhile (· ≠ .usage), i.Goes s.goals.isSome) ∧
      (.usage ∈ s'.printed → o = .ret .left ∧ s'.status ≠ 0)) s := by
  induction l generalizing s with
  | nil => exact ⟨⟨fun h => absurd h hp,fun h => absurd h.1 List.not_mem_nil⟩,fun h => absurd h hp⟩
  | cons i l ih =>
    have hform := hf i List.mem_cons_self
    unfold runItems
    by_cases hu : i = .usage
    · subst hu
      exact ⟨⟨fun _ => ⟨List.mem_cons_self,by simp⟩,fun _ => List.mem_cons_self⟩,
        fun _ => ⟨rfl,Nat.one_ne_zero⟩⟩
    have hcut : (i::l).takeWhile (· ≠ .usage) = i::l.takeWhile (· ≠ .usage) := by
      simp [hu]
    by_cases hi : i.Goes s.goals.isSome
    · obtain ⟨s₁,h₁,hs₁,hp₁,hg₁⟩ := runItem_goes hS hk hform hi hs
      apply wp_bind_ret h₁
      have hrest := ih (fun j hj => hf j (List.mem_cons_of_mem i hj)) hs₁ (hp₁ ▸ hp)
      rw [hg₁] at hrest
      rw [hcut]
      simpa [goOn,hi,Ne.symm hu] using hrest
    -- the pass ends here, with an error of Lua or with the version
    have hmem : ¬(.usage ∈ i::l ∧ ∀ j ∈ (i::l).takeWhile (· ≠ .usage), j.Goes s.goals.isSome) := by
      intro h
      exact hi (h.2 i (hcut ▸ List.mem_cons_self))
    have hend : ∀ {o : Outcome String ClusterEnd} {s' : Shell}, .usage ∉ s'.printed →
        (.usage ∈ s'.printed ↔ .usage ∈ i::l ∧
          ∀ j ∈ (i::l).takeWhile (· ≠ .usage), j.Goes s.goals.isSome) ∧
        (.usage ∈ s'.printed → o = .ret .left ∧ s'.status ≠ 0) :=
      fun h => ⟨⟨fun hm => absurd hm h,fun hm => absurd hm hmem⟩,fun hm => absurd hm h⟩
    cases i with
    | withArg c arg =>
      simp only [Item.Goes,Item.Plain,Item.Formed,List.mem_cons,List.not_mem_nil,or_false] at hi hform
      obtain rfl := hform.resolve_right hi
      exact hend hp
    | goal a =>
      have hnone : s.goals = none := by
        cases hg : s.goals with
        | none => rfl
        | some goals => exact absurd (show Item.Goes s.goals.isSome (.goal a) by simp [hg,Item.Goes]) hi
      exact wp_bind_raise (runItem_goal_none hform hnone) (hend hp)
    | version =>
      have hprinted : Notice.usage ∉ .version::s.printed := by simpa using hp
      exact hend hprinted
    | usage => exact absurd rfl hu
    | _ => exact absurd trivial hi

/-- So it is after a pass. -/
theorem parse_usage (hS : execute = true → S.Succeeds) (hk : execute = true → S.KeepsGoals)
    (argv : List Arg) {s : Shell} (hs : s.status = 0) (hp : s.printed = []) :
    wp (parseCommandline S execute argv) (fun o s' =>
      (.usage ∈ s'.printed ↔ .usage ∈ cutArgs true argv ∧
        ∀ i ∈ (cutArgs true argv).takeWhile (· ≠ .usage), i.Goes s.goals.isSome) ∧
      (.usage ∈ s'.printed → o = .ret () ∧ s'.status ≠ 0)) s := by
  have hrun := runItems_usage hS hk (formed_cutArgs true argv) hs (by simp [hp])
  unfold parseCommandline
  rw [parseArgs_eq]
  apply wp_bind_of hrun
  · exact fun e s' h => ⟨h.1,fun hm => ⟨rfl,(h.2 hm).2⟩⟩
  · exact fun e s' h => ⟨h.1,fun hm => absurd (h.2 hm).1 (by simp)⟩
  · exact fun s' h => ⟨h.1,fun hm => absurd (h.2 hm).1 (by simp)⟩

/-- Both passes execute the items of one and the same cut, and no code is run once the first pass
has printed the usage text. The command line is read as the usage text says exactly if there is a
number behind every `-j`, and neither a goal nor `-C` before a usage error. -/
theorem readsUsage_iff (argv : List Arg) :
    (∀ S execute, parseCommandline S execute argv =
      runItems S execute (cutArgs true argv) >>= fun _ => pure ()) ∧
    (∀ S env cwd s, (parseCommandline S false argv (Shell.start env cwd)).2 = s →
      .usage ∈ s.printed → ∀ S', pmain S' argv (Shell.start env cwd) = (.ret (),s)) ∧
    (ReadsUsage argv ↔ .jobs none ∉ readArgs true argv ∧
      (.usage ∈ readArgs true argv → ∀ i ∈ (readArgs true argv).takeWhile (· ≠ .usage), i.Plain)) := by
  have hnocode : ∀ {P : Prop}, false = true → P := fun h => absurd h Bool.false_ne_true
  refine ⟨fun S execute => parseArgs_eq true argv,fun S env cwd s hrun hu S' => ?_,fun h => ⟨?_,?_⟩,
    fun ⟨hj,hplain⟩ => ?_⟩
  · have hpass := (parse_usage (S := S') hnocode hnocode argv (s := Shell.start env cwd) rfl rfl).2
    have hs : parseCommandline S' false argv (Shell.start env cwd) = (.ret (),s) ∧ s.status ≠ 0 := by
      rw [parseCommandline_false S S'] at hrun
      rw [← hrun] at hu ⊢
      exact ⟨Prod.ext (hpass hu).1 rfl,(hpass hu).2⟩
    unfold pmain
    rw [run_bind_of_ret hs.1,run_bind_gets,run_ite,if_pos (show (id s).status ≠ 0 from hs.2)]
    rfl
  · rw [← h.items]
    exact jobs_notMem_cutArgs true argv
  · intro hu
    have hpass := (parse_usage (S := System.idle) hnocode hnocode argv
      (s := Shell.start (fun _ => none) []) rfl rfl).1
    have hgoes := (hpass.mp ((h.first System.idle _ _).mpr hu)).2
    intro i hi
    rw [← h.items] at hi
    have := hgoes i hi
    cases i with
    | goal a => exact absurd this Bool.false_ne_true
    | _ => exact this
  · have hcut := cutArgs_eq true argv hj
    refine ⟨hcut,fun S env cwd => ?_,fun S s hS hk hs hg hp => ?_⟩
    · rw [(parse_usage hnocode hnocode argv rfl rfl).1,hcut]
      exact ⟨And.left,fun hu => ⟨hu,fun i hi => goes_of_plain (hplain hu i hi)⟩⟩
    · rw [(parse_usage (fun _ => hS) (fun _ => hk) argv hs hp).1,hcut]
      exact ⟨And.left,fun hu => ⟨hu,fun i hi => goes_of_plain (hplain hu i hi)⟩⟩

/-- The goal behind `-j` is taken for its number. -/
theorem jobs_swallows : ¬ReadsUsage ["-j".toList,"all".toList] := by
  intro h
  exact absurd h.items (by decide)

end
end Presto
