import Presto.CommandLine
import Presto.MakeDir
import Mathlib.Data.Finmap

/-! The environment of a process: the block that `make.proc.spawn` builds of a table, and the
loop of `luaopen_make` that fills `make.env` from the block of its own process. -/
namespace Presto
open Program

/-- The size of `env_buffer`, `keyb` and `valueb`. -/
def envSize : ℕ := 32768

/-- A table from strings to strings. -/
abbrev EnvTable := Finmap fun _ : Arg => Arg

/-- `*env++ = c`, with no result when the buffer is full. -/
def push (block : Arg) (c : Char) : Option Arg := if block.length < envSize then some (block++[c]) else none

/-- `while(*text) *env++ = *text++`; a Lua string ends at its first NUL here. -/
def pushText (block : Arg) : Arg → Option Arg
  | [] => some block
  | c::text => if c = NUL then some block else do pushText (← push block c) text

/-- One pass of the loop over the table. -/
def pushEntry (block : Arg) (e : Arg × Arg) : Option Arg := do
  let block ← pushText block e.1
  let block ← push block '='
  let block ← pushText block e.2
  push block NUL

/-- What `lua_next` gives one after the other. -/
def EnvTable.entries (names : Enumeration Arg) (tick : ℕ) (t : EnvTable) : List (Arg × Arg) :=
  (names.order tick t.keys).filterMap fun name => (t.lookup name).map fun value => (name,value)

/-- The environment that `make_proc_spawn` gives to the new process. -/
def envBlock (names : Enumeration Arg) (tick : ℕ) (t : EnvTable) : Option Arg := do
  let block ← (t.entries names tick).foldlM pushEntry []
  push block NUL

/-- `while(*env != '=') *key++ = toupper(*env++)` with what is behind the `=`; there is no result
when the loop leaves the block or `keyb`. -/
def readKey (key : Arg) : Arg → Option (Arg × Arg)
  | [] => none
  | c::env =>
    if key.length < envSize then
      if c = '=' then some (key,env) else readKey (key++[c.toUpper]) env
    else none

/-- `while(*env) *value++ = *env++` -/
def readValue (value : Arg) : Arg → Option (Arg × Arg)
  | [] => none
  | c::env =>
    if value.length < envSize then
      if c = NUL then some (value,env) else readValue (value++[c]) env
    else none

theorem readKey_length {key env : Arg} {r : Arg × Arg} (h : readKey key env = some r) :
    r.2.length < env.length := by
  induction env generalizing key with
  | nil => cases h
  | cons c env ih =>
    unfold readKey at h
    split_ifs at h
    · cases h
      simp
    · exact (ih h).trans (by simp)

theorem readValue_length {value env : Arg} {r : Arg × Arg} (h : readValue value env = some r) :
    r.2.length < env.length := by
  induction env generalizing value with
  | nil => cases h
  | cons c env ih =>
    unfold readValue at h
    split_ifs at h
    · cases h
      simp
    · exact (ih h).trans (by simp)

/-- `if(strlen(keyb))` and the assignment. -/
def setVariable (t : Arg → Option Arg) (key value : Arg) : Arg → Option Arg :=
  if wtext key = [] then t else Function.update t (wtext key) (some value)

/-- The loop over the environment block, with the table so far. -/
def readEnv (t : Arg → Option Arg) (env : Arg) : Option (Arg → Option Arg) :=
  if env.head? = some NUL then some t
  else
    match _hkey : readKey [] env with
    | none => none
    | some (key,rest) =>
      match _hvalue : readValue [] rest with
      | none => none
      | some (value,rest') => readEnv (setVariable t key value) rest'
termination_by env.length
decreasing_by exact (readValue_length _hvalue).trans (readKey_length _hkey)

/-- `make.env` as `luaopen_make` makes it. -/
def openEnv (env : Arg) : Option (Arg → Option Arg) := readEnv (fun _ => none) env

/-- The part of a block for one variable. -/
def entryText (e : Arg × Arg) : Arg := e.1++ '='::(e.2++[NUL])

/-- The block for a list of variables. -/
def blockOf (l : List (Arg × Arg)) : Arg := l.flatMap entryText++[NUL]

section Writing
variable {block : Arg}

/-- The buffer after `block` has been written, if it fits. -/
def filled (block : Arg) : Option Arg := if block.length ≤ envSize then some block else none

theorem filled_of_fits (h : block.length ≤ envSize) : filled block = some block := if_pos h

/-- What is written next also has to fit. -/
theorem filled_bind {f : Arg → Option Arg} {text : Arg}
    (h : block.length ≤ envSize → f block = filled (block++text)) :
    (filled block >>= f) = filled (block++text) := by
  unfold filled at h ⊢
  split_ifs with hblock happ
  · exact (h hblock).trans (if_pos happ)
  · exact (h hblock).trans (if_neg happ)
  · next happ => exact absurd (le_trans (by simp) happ) hblock
  · rfl

theorem push_eq (block : Arg) (c : Char) : push block c = filled (block++[c]) := by
  unfold push filled
  congr 1
  rw [List.length_append]
  exact propext Nat.lt_iff_add_one_le

theorem pushText_eq {text : Arg} (htext : NUL ∉ text) (hblock : block.length ≤ envSize) :
    pushText block text = filled (block++text) := by
  induction text generalizing block with
  | nil => rw [List.append_nil,filled_of_fits hblock,pushText]
  | cons c text ih =>
    obtain ⟨hc,htext⟩ := not_or.mp fun h => htext (List.mem_cons.mpr h)
    unfold pushText
    rw [if_neg (Ne.symm hc),push_eq,List.append_cons block c text]
    exact filled_bind fun h => ih htext h

theorem pushEntry_eq {e : Arg × Arg} (hname : NUL ∉ e.1) (hvalue : NUL ∉ e.2) (hblock : block.length ≤ envSize) :
    pushEntry block e = filled (block++entryText e) := by
  unfold pushEntry entryText
  rw [pushText_eq hname hblock,← List.append_assoc]
  refine filled_bind fun _ => ?_
  rw [push_eq,List.append_cons _ '=' (e.2++[NUL])]
  refine filled_bind fun hblock => ?_
  rw [pushText_eq hvalue hblock,← List.append_assoc]
  exact filled_bind fun _ => push_eq _ _

theorem foldlM_pushEntry {l : List (Arg × Arg)} (hl : ∀ e ∈ l, NUL ∉ e.1 ∧ NUL ∉ e.2)
    (hblock : block.length ≤ envSize) : l.foldlM pushEntry block = filled (block++l.flatMap entryText) := by
  induction l generalizing block with
  | nil => simp [filled_of_fits hblock]
  | cons e l ih =>
    obtain ⟨hname,hvalue⟩ := hl e List.mem_cons_self
    rw [List.foldlM_cons,pushEntry_eq hname hvalue hblock,List.flatMap_cons,← List.append_assoc]
    exact filled_bind fun h => ih (fun x hx => hl x (List.mem_cons_of_mem e hx)) h

end Writing

section Reading

theorem readKey_text {name : Arg} (hname : '=' ∉ name) (key rest : Arg)
    (hfits : key.length+name.length < envSize) :
    readKey key (name++ '='::rest) = some (key++upper name,rest) := by
  induction name generalizing key with
  | nil => simpa [readKey,upper] using hfits
  | cons c name ih =>
    obtain ⟨hc,hname⟩ := not_or.mp fun h => hname (List.mem_cons.mpr h)
    rw [List.length_cons] at hfits
    rw [List.cons_append,readKey,if_pos (by omega),if_neg (Ne.symm hc),ih hname _ (by simp; omega)]
    simp [upper]

theorem readValue_text {text : Arg} (htext : NUL ∉ text) (value rest : Arg)
    (hfits : value.length+text.length < envSize) :
    readValue value (text++NUL::rest) = some (value++text,rest) := by
  induction text generalizing value with
  | nil => simpa [readValue] using hfits
  | cons c text ih =>
    obtain ⟨hc,htext⟩ := not_or.mp fun h => htext (List.mem_cons.mpr h)
    rw [List.length_cons] at hfits
    rw [List.cons_append,readValue,if_pos (by omega),if_neg (Ne.symm hc),ih htext _ (by simp; omega)]
    simp

/-- A variable as the environment of a process has it: the name ends at the first `=`, and there
is room for both texts. -/
structure SoundEntry (e : Arg × Arg) : Prop where
  name_eq : '=' ∉ e.1
  name_nul : NUL ∉ e.1
  value_nul : NUL ∉ e.2
  name_fits : e.1.length < envSize
  value_fits : e.2.length < envSize

theorem nul_notMem_upper {name : Arg} (h : NUL ∉ name) : NUL ∉ upper name := by
  intro hmem
  obtain ⟨c,hc,hup⟩ := List.mem_map.mp hmem
  have halpha : c.isAlpha = false := by
    rw [← Char.isAlpha_toUpper_eq_isAlpha,hup]
    decide
  have hlower : ¬c.isLower := fun hl => by simp [Char.isAlpha,hl] at halpha
  rw [Char.toUpper_eq_of_not_isLower hlower] at hup
  exact h (hup ▸ hc)

theorem setVariable_upper {name : Arg} (h : NUL ∉ name) (t : Arg → Option Arg) (value : Arg) :
    setVariable t (upper name) value =
      if name = [] then t else Function.update t (upper name) (some value) := by
  have htext : wtext (upper name) = upper name := by
    apply List.takeWhile_eq_self_iff.mpr
    intro c hc
    have hne : c ≠ NUL := fun he => nul_notMem_upper h (he ▸ hc)
    simpa using hne
  unfold setVariable
  rw [htext]
  simp [upper]

theorem readEnv_entry {e : Arg × Arg} (h : SoundEntry e) (t : Arg → Option Arg) (rest : Arg) :
    readEnv t (entryText e++rest) = readEnv (setVariable t (upper e.1) e.2) rest := by
  have hkey := readKey_text h.name_eq [] (e.2++NUL::rest) (by simpa using h.name_fits)
  have hvalue := readValue_text h.value_nul [] rest (by simpa using h.value_fits)
  have htext : entryText e++rest = e.1++ '='::(e.2++NUL::rest) := by simp [entryText]
  have hhead : (e.1++ '='::(e.2++NUL::rest)).head? ≠ some NUL := by
    cases hname : e.1 with
    | nil => simp [NUL]
    | cons c name =>
      rintro hc
      obtain rfl : c = NUL := by simpa using hc
      exact h.name_nul (by simp [hname])
  rw [htext,readEnv,if_neg hhead]
  split
  · next hnone =>
    rw [hkey] at hnone
    cases hnone
  · next key rest₁ hsome =>
    rw [hkey] at hsome
    cases hsome
    split
    · next hnone =>
      rw [hvalue] at hnone
      cases hnone
    · next value rest₂ hsome =>
      rw [hvalue] at hsome
      cases hsome
      rfl

/-- The loop comes back at the end of the block, and has assigned the variables one after the other. -/
theorem readEnv_block {l : List (Arg × Arg)} (hl : ∀ e ∈ l, SoundEntry e) (t : Arg → Option Arg) (after : Arg) :
    readEnv t (blockOf l++after) = some (l.foldl (fun t e => setVariable t (upper e.1) e.2) t) := by
  unfold blockOf
  induction l generalizing t with
  | nil =>
    rw [readEnv]
    rfl
  | cons e l ih =>
    rw [List.flatMap_cons,List.append_assoc,List.append_assoc,readEnv_entry (hl e List.mem_cons_self),
      ← List.append_assoc]
    exact ih (fun x hx => hl x (List.mem_cons_of_mem e hx)) _

/-- What the assignment of a variable writes to `make.env[k]`. -/
def entryWrite (k : Arg) (e : Arg × Arg) : Option (Option Arg) :=
  if e.1 ≠ [] ∧ upper e.1 = k then some (some e.2) else none

theorem setVariable_apply {e : Arg × Arg} (h : NUL ∉ e.1) (t : Arg → Option Arg) (k : Arg) :
    setVariable t (upper e.1) e.2 k = (entryWrite k e).getD (t k) := by
  rw [setVariable_upper h]
  unfold entryWrite
  by_cases hname : e.1 = []
  · simp [hname]
  · by_cases hk : upper e.1 = k
    · simp [hname,hk]
    · simp [hname,hk,Function.update_of_ne (Ne.symm hk)]

end Reading

section Table
variable (names : Enumeration Arg) (tick : ℕ) (t : EnvTable)

/-- The number of bytes that a table needs in `env_buffer`. -/
def EnvTable.blockSize : ℕ := ∑ name ∈ t.keys, (name.length+((t.lookup name).getD []).length+2)+1

theorem mem_entries (e : Arg × Arg) : e ∈ t.entries names tick ↔ t.lookup e.1 = some e.2 := by
  unfold EnvTable.entries
  simp only [List.mem_filterMap,names.mem_order,Option.map_eq_some_iff]
  constructor
  · rintro ⟨name,_,value,hv,rfl⟩
    exact hv
  · intro h
    exact ⟨e.1,Finmap.mem_keys.mpr (Finmap.mem_of_lookup_eq_some h),e.2,h,rfl⟩

theorem entries_eq_map : t.entries names tick =
    (names.order tick t.keys).map fun name => (name,(t.lookup name).getD []) := by
  unfold EnvTable.entries
  rw [← List.filterMap_eq_map]
  apply List.filterMap_congr
  intro name hname
  have hmem := Finmap.mem_keys.mp ((names.mem_order tick t.keys name).mp hname)
  obtain ⟨value,hv⟩ := Finmap.mem_iff.mp hmem
  simp [hv]

theorem length_blockOf_entries : (blockOf (t.entries names tick)).length = t.blockSize := by
  have hkeys : (names.order tick t.keys).toFinset = t.keys := by
    ext name
    rw [List.mem_toFinset,names.mem_order]
  unfold blockOf EnvTable.blockSize
  rw [List.length_append,List.length_flatMap,entries_eq_map,List.map_map]
  nth_rewrite 2 [← hkeys]
  rw [List.sum_toFinset _ (names.nodup tick t.keys)]
  congr 2
  apply List.map_congr_left
  intro name _
  simp [entryText]
  omega

theorem size_of_lookup {name value : Arg} (h : t.lookup name = some value) :
    name.length+value.length+3 ≤ t.blockSize := by
  have hmem : name ∈ t.keys := Finmap.mem_keys.mpr (Finmap.mem_of_lookup_eq_some h)
  have hle := Finset.single_le_sum (f := fun name => name.length+((t.lookup name).getD []).length+2)
    (fun _ _ => Nat.zero_le _) hmem
  simp only [h,Option.getD_some] at hle
  unfold EnvTable.blockSize
  omega

/-- The block is written as far as it fits, and it is the block of the entries. -/
theorem envBlock_eq (hname : ∀ name ∈ t, NUL ∉ name) (hvalue : ∀ name value, t.lookup name = some value → NUL ∉ value) :
    envBlock names tick t = filled (blockOf (t.entries names tick)) := by
  have hentries : ∀ e ∈ t.entries names tick, NUL ∉ e.1 ∧ NUL ∉ e.2 := by
    intro e he
    have hlook := (mem_entries names tick t e).mp he
    exact ⟨hname _ (Finmap.mem_of_lookup_eq_some hlook),hvalue _ _ hlook⟩
  unfold envBlock blockOf
  rw [foldlM_pushEntry hentries (Nat.zero_le _),List.nil_append]
  exact filled_bind fun _ => push_eq _ _

theorem entryWrite_eq_some {k v : Arg} {e : Arg × Arg} :
    entryWrite k e = some (some v) ↔ e.1 ≠ [] ∧ upper e.1 = k ∧ e.2 = v := by
  unfold entryWrite
  split_ifs with h
  · simp [h]
  · rw [false_iff]
    exact fun hk => h ⟨hk.1,hk.2.1⟩

/-- Since no two names differ only in case, no variable overwrites another one. -/
theorem lastWrite_entries (hname : ∀ name ∈ t, name ≠ []) (hcase : ∀ k ∈ t, ∀ l ∈ t, upper k = upper l → k = l)
    (k v : Arg) : (lastWrite (entryWrite k) (t.entries names tick)).getD none = some v ↔
      ∃ name, t.lookup name = some v ∧ upper name = k := by
  constructor
  · intro h
    obtain ⟨w,hw,rfl⟩ : ∃ w, lastWrite (entryWrite k) (t.entries names tick) = some w ∧ w = some v := by
      cases hlast : lastWrite (entryWrite k) (t.entries names tick) with
      | none => simp [hlast] at h
      | some w => exact ⟨w,rfl,by simpa [hlast] using h⟩
    obtain ⟨e,he,hwrite⟩ := exists_of_lastWrite hw
    obtain ⟨_,hk,rfl⟩ := entryWrite_eq_some.mp hwrite
    exact ⟨e.1,(mem_entries names tick t e).mp he,hk⟩
  · rintro ⟨name,hlook,hk⟩
    have hmem := Finmap.mem_of_lookup_eq_some hlook
    have hlast : lastWrite (entryWrite k) (t.entries names tick) = some (some v) := by
      apply lastWrite_of_mem (i := (name,v)) ((mem_entries names tick t _).mpr hlook)
      · exact entryWrite_eq_some.mpr ⟨hname name hmem,hk,rfl⟩
      · intro e he w hw
        have hlook' := (mem_entries names tick t e).mp he
        unfold entryWrite at hw
        split_ifs at hw with h
        obtain rfl := hcase _ (Finmap.mem_of_lookup_eq_some hlook') _ hmem (h.2.trans hk.symm)
        rw [hlook] at hlook'
        cases hlook'
        exact (Option.some.inj hw).symm
    rw [hlast]
    rfl

/-- A child that runs presto finds the table of its parent in `make.env`, with the names in upper
case, whatever is in memory behind the block. -/
theorem environment_roundTrip (hname : ∀ name ∈ t, name ≠ [] ∧ '=' ∉ name ∧ NUL ∉ name)
    (hcase : ∀ k ∈ t, ∀ l ∈ t, upper k = upper l → k = l)
    (hvalue : ∀ name value, t.lookup name = some value → NUL ∉ value) (hfits : t.blockSize ≤ envSize) :
    ∃ block env, envBlock names tick t = some block ∧ (∀ after, openEnv (block++after) = some env) ∧
      ∀ k v, env k = some v ↔ ∃ name, t.lookup name = some v ∧ upper name = k := by
  have hsound : ∀ e ∈ t.entries names tick, SoundEntry e := by
    intro e he
    have hlook := (mem_entries names tick t e).mp he
    have hmem := Finmap.mem_of_lookup_eq_some hlook
    have hsize := size_of_lookup t hlook
    exact ⟨(hname _ hmem).2.1,(hname _ hmem).2.2,hvalue _ _ hlook,by omega,by omega⟩
  refine ⟨_,_,?_,fun after => readEnv_block hsound _ after,fun k v => ?_⟩
  · rw [envBlock_eq names tick t (fun name hn => (hname name hn).2.2) hvalue]
    exact filled_of_fits ((length_blockOf_entries names tick t).trans_le hfits)
  · have hlast := foldl_lastWrite (fun t e => setVariable t (upper e.1) e.2) (fun t => t k) (entryWrite k)
      (t.entries names tick) (fun e he s => setVariable_apply (hsound e he).name_nul s k) fun _ => none
    exact (Eq.congr_left hlast).trans (lastWrite_entries names tick t (fun name hn => (hname name hn).1) hcase k v)

end Table

/-- A name in mixed case with a value that has a `=`, and an empty value. -/
def EnvTable.sample : EnvTable := (Finmap.singleton "x".toList []).insert "Path".toList "a=b".toList

theorem environment_roundTrip_sample :
    ∃ block env, envBlock Enumeration.sorted 0 EnvTable.sample = some block ∧
      (∀ after, openEnv (block++after) = some env) ∧
      ∀ k v, env k = some v ↔ ∃ name, EnvTable.sample.lookup name = some v ∧ upper name = k := by
  have hmem : ∀ name ∈ EnvTable.sample, name = "Path".toList ∨ name = "x".toList := by
    intro name hname
    simpa [EnvTable.sample,Finmap.mem_insert] using hname
  apply environment_roundTrip
  · intro name hname
    rcases hmem name hname with rfl | rfl <;> decide
  · intro k hk l hl
    rcases hmem k hk with rfl | rfl <;> rcases hmem l hl with rfl | rfl <;> decide
  · intro name value h
    rcases hmem name (Finmap.mem_of_lookup_eq_some h) with rfl | rfl
    · cases h
      decide
    · cases h
      decide
  · decide

end Presto
