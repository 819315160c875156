import MeetixOS.LibUtils.PropertyFileParser

/-! # The variables of the shell and their file

`Environment` keeps the shell's variables in a map and writes all of them to a file, one line
each, with every `setVariable`. `load` reads such a file with the `PropertyFileParser`. A lookup of
a variable that is not there adds an empty one, which the next `setVariable` writes too; the
parser ends at its line. -/

namespace MeetixOS.MxSh

open LibUtils

/-! ## The environment -/

/-- `Environment`, with the content of the file at `envPath`. A file that is not there reads empty. -/
structure Environment where
  environmentVariables : Properties
  file : List UInt8

/-- A new `Environment` for a file. -/
def Environment.fresh (file : List UInt8) : Environment := ⟨∅, file⟩

def Environment.load (env : Environment) : Environment :=
  let vars := properties env.file
  { env with
    environmentVariables := vars.toList.foldl
      (fun map cop => map.insert cop.1 (vars.getD cop.1 [])) env.environmentVariables }

/-- The line that `setVariable` writes for a variable. -/
def variableLine (entry : List UInt8 × List UInt8) : List UInt8 :=
  entry.1 ++ equals :: (entry.2 ++ [newline])

/-- What `setVariable` writes to the file. -/
def fileText (entries : List (List UInt8 × List UInt8)) : List UInt8 :=
  entries.flatMap variableLine

/-- The two calls that programs make of an environment. -/
inductive Call where
  | getVariable (key : List UInt8)
  | setVariable (key value : List UInt8)
  deriving DecidableEq

/-- The effect of a call. The lookup is `environmentVariables[key]`, which adds an empty value where
there is none. -/
def Environment.call (env : Environment) : Call → Environment
  | .getVariable key =>
    { env with environmentVariables := env.environmentVariables.insertIfNew key [] }
  | .setVariable key value =>
    let vars := env.environmentVariables.insert key value
    { environmentVariables := vars, file := fileText vars.toList }

/-- The calls made of an environment, in their order, when there is no file at first. -/
def run (calls : List Call) : Environment := calls.foldl Environment.call (.fresh [])

/-- The variables of a fresh environment loaded from the file that the calls leave. -/
def reloaded (calls : List Call) : Properties :=
  (Environment.fresh (run calls).file).load.environmentVariables

/-! ## The variables that were set -/

/-- The last value of a variable that was set. -/
def lastValue (calls : List Call) (key : List UInt8) : Option (List UInt8) :=
  calls.foldl
    (fun last call =>
      match call with
      | .getVariable _ => last
      | .setVariable key' value => if key' = key then some value else last) none

def Call.isLookup : Call → Bool
  | .getVariable _ => true
  | .setVariable _ _ => false

/-- The calls to the last `setVariable`: those whose effect the file shows. -/
def writtenCalls (calls : List Call) : List Call := calls.rdropWhile Call.isLookup

/-- The calls as the file format allows them: proper keys, and values of one line. -/
def ValidCall : Call → Prop
  | .getVariable key => ValidKey key
  | .setVariable key value => ValidKey key ∧ newline ∉ value

section

variable (calls : List Call)

theorem run_snoc (call : Call) : run (calls ++ [call]) = (run calls).call call := by
  simp [run]

theorem lastValue_get (key' key : List UInt8) :
    lastValue (calls ++ [.getVariable key']) key = lastValue calls key := by
  simp [lastValue]

theorem lastValue_set (key' value key : List UInt8) :
    lastValue (calls ++ [.setVariable key' value]) key =
      if key' = key then some value else lastValue calls key := by
  simp [lastValue]

theorem run_variables (key : List UInt8) :
    (run calls).environmentVariables[key]? =
      (lastValue calls key).or (if Call.getVariable key ∈ calls then some [] else none) := by
  induction calls using List.reverseRecOn with
  | nil => simp [run, lastValue, Environment.fresh]
  | append_singleton calls call ih =>
    rw [run_snoc]
    cases call with
    | getVariable key' =>
      simp only [Environment.call, getElem?_insertIfNew_or, lastValue_get, ih, Option.or_assoc,
        List.mem_append, List.mem_singleton, Call.getVariable.injEq]
      congr 1
      by_cases hmem : Call.getVariable key ∈ calls
      · simp [hmem]
      · simp [hmem, eq_comm]
    | setVariable key' value =>
      simp only [Environment.call, Std.TreeMap.getElem?_insert, lastValue_set, ih,
        Std.LawfulEqCmp.compare_eq_iff_eq]
      by_cases hkey : key' = key
      · simp [hkey]
      · simp [hkey]

theorem run_file :
    (run calls).file = fileText (run (writtenCalls calls)).environmentVariables.toList := by
  induction calls using List.reverseRecOn with
  | nil => simp [run, writtenCalls, Environment.fresh, fileText]
  | append_singleton calls call ih =>
    cases call with
    | getVariable key =>
      rw [run_snoc]
      have hwritten : writtenCalls (calls ++ [.getVariable key]) = writtenCalls calls := by
        simp [writtenCalls, List.rdropWhile_concat, Call.isLookup]
      rw [hwritten]
      exact ih
    | setVariable key value =>
      have hwritten : writtenCalls (calls ++ [.setVariable key value]) =
          calls ++ [.setVariable key value] := by
        simp [writtenCalls, Call.isLookup]
      rw [hwritten, run_snoc]
      rfl

end

/-! ## Reading the file -/

/-- The entries read from a file's lines, behind what stands before the first of them. -/
def readLines (lead : List UInt8) (entries : List (List UInt8 × List UInt8)) : Properties :=
  propertiesLoop ∅ (lead ++ fileText entries)

variable {lead : List UInt8}

theorem readLines_nil (hlead : LineStart lead) : readLines lead [] = ∅ := by
  rcases hlead with rfl | rfl
  · exact propertiesLoop_end ∅ rfl
  · exact propertiesLoop_none ∅ (by decide)

theorem readLines_cons {entry : List UInt8 × List UInt8}
    (entries : List (List UInt8 × List UInt8)) (hlead : LineStart lead) (hkey : ValidKey entry.1)
    (hend : endOfBuffer ∉ entry.1) (hvalue : newline ∉ entry.2) (key : List UInt8) :
    (readLines lead (entry :: entries))[key]? =
      if readValue entry.2 = [] then none
      else if entry.1 = key then some (readValue entry.2)
      else if endOfBuffer ∈ entry.2 then none
      else (readLines [newline] entries)[key]? := by
  have htext : lead ++ fileText (entry :: entries) =
      lead ++ (entry.1 ++ equals :: (entry.2 ++ newline :: fileText entries)) := by
    simp [fileText, variableLine]
  have hentry := propertyEntry_line (fileText entries) hlead hkey hend hvalue
  unfold readLines
  rw [htext]
  split_ifs at hentry ⊢ with hempty heq hff
  · rw [propertiesLoop_none ∅ hentry]
    simp
  · rw [propertiesLoop_some ∅ hentry, propertiesLoop_getElem?, getElem?_insertIfNew_or]
    simp [heq]
  all_goals
    rw [propertiesLoop_some ∅ hentry, propertiesLoop_getElem?, getElem?_insertIfNew_or]
    rcases dropWhile_value hvalue (fileText entries) with ⟨hnot, hrest⟩ | ⟨hmem, hrest⟩
  · exact absurd hff hnot
  · rw [propertiesLoop_end ∅ (by simp [hrest])]
    simp [heq]
  · rw [hrest]
    simp [heq]
  · exact absurd hmem hff

section

variable {entries : List (List UInt8 × List UInt8)}

theorem readLines_mem (hlead : LineStart lead)
    (hkeys : ∀ entry ∈ entries, ValidKey entry.1 ∧ endOfBuffer ∉ entry.1)
    (hvalues : ∀ entry ∈ entries, newline ∉ entry.2) {key value : List UInt8}
    (h : (readLines lead entries)[key]? = some value) : ∃ entry ∈ entries, entry.1 = key := by
  induction entries generalizing lead with
  | nil => simp [readLines_nil hlead] at h
  | cons entry entries ih =>
    obtain ⟨hkey, hend⟩ := hkeys entry (by simp)
    rw [readLines_cons entries hlead hkey hend (hvalues entry (by simp))] at h
    split_ifs at h with hempty heq hff
    · exact ⟨entry, by simp, heq⟩
    · obtain ⟨other, hmem, hother⟩ := ih (Or.inr rfl) (fun e he => hkeys e (by simp [he]))
        (fun e he => hvalues e (by simp [he])) h
      exact ⟨other, by simp [hmem], hother⟩

/-- The variables that were set come back if and only if each value is kept, and no line of one that
was not set stands before it. No key reads as the end of the buffer. -/
theorem readLines_iff (isSet : List UInt8 → Prop) (hlead : LineStart lead)
    (hdistinct : entries.Pairwise fun a b => a.1 ≠ b.1)
    (hkeys : ∀ entry ∈ entries, ValidKey entry.1 ∧ endOfBuffer ∉ entry.1)
    (hvalues : ∀ entry ∈ entries, newline ∉ entry.2)
    (hlookup : ∀ entry ∈ entries, ¬ isSet entry.1 → entry.2 = []) :
    (∀ key value, (readLines lead entries)[key]? = some value ↔
        (key, value) ∈ entries ∧ isSet key) ↔
      (∀ entry ∈ entries, isSet entry.1 → KeptValue entry.2) ∧
        entries.Pairwise fun a b => isSet b.1 → isSet a.1 := by
  induction entries generalizing lead with
  | nil => simp [readLines_nil hlead]
  | cons entry entries ih =>
    obtain ⟨hkey, hend⟩ := hkeys entry (by simp)
    have hvalue := hvalues entry (by simp)
    obtain ⟨hnew, hdistinct'⟩ := List.pairwise_cons.mp hdistinct
    have hkeys' : ∀ e ∈ entries, ValidKey e.1 ∧ endOfBuffer ∉ e.1 :=
      fun e he => hkeys e (by simp [he])
    have hvalues' : ∀ e ∈ entries, newline ∉ e.2 := fun e he => hvalues e (by simp [he])
    have ih' := ih (Or.inr rfl : LineStart [newline]) hdistinct' hkeys' hvalues'
      fun e he => hlookup e (by simp [he])
    have hread := readLines_cons entries hlead hkey hend hvalue
    simp only [List.forall_mem_cons, List.pairwise_cons]
    by_cases hset : isSet entry.1
    · by_cases hkept : KeptValue entry.2
      · -- the line is read back, and what it adds is not in the lines behind it
        have hrest : ∀ value, (readLines [newline] entries)[entry.1]? ≠ some value := by
          intro value hvalue'
          obtain ⟨other, hmem, hother⟩ := readLines_mem (Or.inr rfl) hkeys' hvalues' hvalue'
          exact hnew other hmem hother.symm
        have hvalueKept := (keptValue_iff entry.2).mp hkept
        simp only [hvalueKept.1, hvalueKept.2, hkept.2.1, if_false] at hread
        simp only [hset, hkept, implies_true, true_and]
        rw [← ih']
        refine forall_congr' fun key => forall_congr' fun value => ?_
        rw [hread key]
        by_cases heq : entry.1 = key
        · subst heq
          have hmem : (entry.1, value) ∉ entries := fun hmem => hnew _ hmem rfl
          simp [hset, hrest value, hmem, Prod.ext_iff, eq_comm]
        · have hne : (key, value) ≠ entry := fun h => heq (h ▸ rfl)
          simp [heq, hne]
      · -- the variable itself is lost or altered
        refine iff_of_false (fun h => ?_) fun h => hkept (h.1.1 hset)
        have hself := (h entry.1 entry.2).mpr ⟨by simp, hset⟩
        rw [hread entry.1, if_pos rfl] at hself
        split_ifs at hself with hempty
        have heq := Option.some.inj hself
        exact hkept ((keptValue_iff entry.2).mpr ⟨heq, heq ▸ hempty⟩)
    · -- the line of an empty variable ends the reading
      have hempty : readValue entry.2 = [] := by
        rw [hlookup entry (by simp) hset]
        rfl
      simp only [hempty, if_true] at hread
      simp only [hread, hset, imp_false, false_imp_iff, true_and]
      constructor
      · intro h
        have hnone : ∀ e ∈ entries, ¬ isSet e.1 := fun e he hs =>
          absurd ((h e.1 e.2).mpr ⟨by simp [he], hs⟩) (by simp)
        refine ⟨fun e he hs => absurd hs (hnone e he), hnone, ?_⟩
        exact hdistinct'.imp_of_mem fun _ hb _ hs => absurd hs (hnone _ hb)
      · rintro ⟨-, hnone, -⟩ key value
        refine iff_of_false (by simp) ?_
        rintro ⟨hmem, hs⟩
        rcases List.mem_cons.mp hmem with heq | hmem
        · exact hset (heq ▸ hs)
        · exact hnone _ hmem hs

end

/-! ## The fresh environment -/

theorem foldl_insert_getElem? {entries : List (List UInt8 × List UInt8)} (vars map : Properties)
    (hentries : ∀ entry ∈ entries, vars[entry.1]? = some entry.2) (key : List UInt8) :
    (entries.foldl (fun map cop => map.insert cop.1 (vars.getD cop.1 [])) map)[key]? =
      if ∃ entry ∈ entries, entry.1 = key then vars[key]? else map[key]? := by
  induction entries generalizing map with
  | nil => simp
  | cons entry entries ih =>
    have hentry := hentries entry (by simp)
    rw [List.foldl_cons, ih _ fun e he => hentries e (by simp [he]), Std.TreeMap.getElem?_insert,
      Std.TreeMap.getD_eq_getD_getElem?, hentry]
    simp only [Std.LawfulEqCmp.compare_eq_iff_eq, Option.getD_some]
    by_cases hrest : ∃ e ∈ entries, e.1 = key
    · obtain ⟨e, he, rfl⟩ := hrest
      rw [if_pos ⟨e, he, rfl⟩, if_pos ⟨e, by simp [he], rfl⟩]
    · rw [if_neg hrest]
      by_cases heq : entry.1 = key
      · subst heq
        simp [hentry]
      · rw [if_neg heq, if_neg]
        rintro ⟨e, he, hekey⟩
        rcases List.mem_cons.mp he with rfl | he
        · exact heq hekey
        · exact hrest ⟨e, he, hekey⟩

theorem load_getElem? (file key : List UInt8) :
    (Environment.fresh file).load.environmentVariables[key]? = (properties file)[key]? := by
  simp only [Environment.load, Environment.fresh]
  rw [foldl_insert_getElem? _ _ fun entry h =>
    Std.TreeMap.mem_toList_iff_getElem?_eq_some.mp (by simpa using h)]
  split_ifs with h
  · rfl
  · rw [Std.TreeMap.getElem?_emptyc]
    cases hvalue : (properties file)[key]? with
    | none => rfl
    | some value =>
      exact absurd ⟨(key, value), Std.TreeMap.mem_toList_iff_getElem?_eq_some.mpr hvalue, rfl⟩ h

theorem lastValue_writtenCalls (calls : List Call) (key : List UInt8) :
    lastValue (writtenCalls calls) key = lastValue calls key := by
  induction calls using List.reverseRecOn with
  | nil => rfl
  | append_singleton calls call ih =>
    cases call with
    | getVariable key' =>
      rw [lastValue_get, ← ih]
      simp [writtenCalls, List.rdropWhile_concat, Call.isLookup]
    | setVariable key' value => simp [writtenCalls, Call.isLookup]

theorem lastValue_mem {calls : List Call} {key value : List UInt8}
    (h : lastValue calls key = some value) : Call.setVariable key value ∈ calls := by
  induction calls using List.reverseRecOn with
  | nil => simp [lastValue] at h
  | append_singleton calls call ih =>
    cases call with
    | getVariable key' =>
      rw [lastValue_get] at h
      exact List.mem_append_left _ (ih h)
    | setVariable key' value' =>
      rw [lastValue_set] at h
      split_ifs at h with hkey
      · obtain rfl := Option.some.inj h
        simp [hkey]
      · exact List.mem_append_left _ (ih h)

/-- The last value of each variable that was set is kept, no key of these has a byte that reads as the
end of the buffer, and a key looked up before the last `setVariable` but never set comes behind all of
them. -/
def Restorable (calls : List Call) : Prop :=
  (∀ key value, lastValue calls key = some value → endOfBuffer ∉ key ∧ KeptValue value) ∧
  ∀ key, Call.getVariable key ∈ writtenCalls calls → lastValue calls key = none →
    ∀ key' value, lastValue calls key' = some value → compare key' key = .lt

theorem mem_written_iff (calls : List Call) (key value : List UInt8) :
    (key, value) ∈ (run (writtenCalls calls)).environmentVariables.toList ↔
      lastValue calls key = some value ∨
        (lastValue calls key = none ∧ Call.getVariable key ∈ writtenCalls calls ∧ value = []) := by
  rw [Std.TreeMap.mem_toList_iff_getElem?_eq_some, run_variables, lastValue_writtenCalls]
  cases lastValue calls key with
  | some value' => simp
  | none => simp [eq_comm]

theorem mem_written_set_iff (calls : List Call) (key value : List UInt8) :
    (key, value) ∈ (run (writtenCalls calls)).environmentVariables.toList ∧
        (∃ last, lastValue calls key = some last) ↔
      lastValue calls key = some value := by
  rw [mem_written_iff]
  cases lastValue calls key <;> simp

theorem reloaded_getElem? (calls : List Call) (key : List UInt8) :
    (reloaded calls)[key]? =
      (readLines [] (run (writtenCalls calls)).environmentVariables.toList)[key]? := by
  unfold reloaded
  rw [load_getElem?, run_file]
  rfl

theorem pairwise_either {α : Type} {R : α → α → Prop} {l : List α} (h : l.Pairwise R) {a b : α}
    (ha : a ∈ l) (hb : b ∈ l) (hne : a ≠ b) : R a b ∨ R b a := by
  have hboth : l.Pairwise fun x y => R x y ∨ R y x := h.imp fun hxy => Or.inl hxy
  have : Std.Symm fun x y => R x y ∨ R y x := ⟨fun _ _ hxy => Or.symm hxy⟩
  exact hboth.forall ha hb hne

theorem written_pairwise_iff (calls : List Call) :
    ((run (writtenCalls calls)).environmentVariables.toList.Pairwise fun a b =>
        (∃ last, lastValue calls b.1 = some last) → ∃ last, lastValue calls a.1 = some last) ↔
      ∀ key, Call.getVariable key ∈ writtenCalls calls → lastValue calls key = none →
        ∀ key' value, lastValue calls key' = some value → compare key' key = .lt := by
  have hsorted := Std.TreeMap.ordered_keys_toList
    (t := (run (writtenCalls calls)).environmentVariables)
  constructor
  · intro h key hlookup hnone key' value hvalue
    have hkey := (mem_written_iff calls key []).mpr (Or.inr ⟨hnone, hlookup, rfl⟩)
    have hkey' := (mem_written_iff calls key' value).mpr (Or.inl hvalue)
    have hne : (key, []) ≠ (key', value) := by
      intro heq
      obtain ⟨rfl, -⟩ := Prod.mk.inj heq
      rw [hnone] at hvalue
      exact absurd hvalue (by simp)
    -- one of the two lines stands before the other
    rcases pairwise_either (hsorted.and h) hkey hkey' hne with hbefore | hbehind
    · obtain ⟨last, hlast⟩ := hbefore.2 ⟨value, hvalue⟩
      rw [hnone] at hlast
      exact absurd hlast (by simp)
    · exact hbehind.1
  · intro h
    refine hsorted.imp_of_mem fun {a b} ha hb hlt => ?_
    rintro ⟨last, hlast⟩
    cases hvalue : lastValue calls a.1 with
    | some value => exact ⟨value, rfl⟩
    | none =>
      rcases (mem_written_iff calls a.1 a.2).mp ha with hset | ⟨-, hlookup, -⟩
      · rw [hvalue] at hset
        exact absurd hset (by simp)
      · have hgt := h a.1 hlookup hvalue b.1 last hlast
        exact absurd hgt (Std.OrientedCmp.not_lt_of_lt hlt)

/-- A fresh environment loaded from the file has exactly the variables that were set, with their last
values, if and only if the calls are restorable. The keys never set are free of the byte that reads as
the end of the buffer. -/
theorem reloaded_iff (calls : List Call) (hvalid : ∀ call ∈ calls, ValidCall call)
    (hlookups : ∀ key, Call.getVariable key ∈ calls → lastValue calls key = none →
      endOfBuffer ∉ key) :
    (∀ key, (reloaded calls)[key]? = lastValue calls key) ↔ Restorable calls := by
  by_cases hset : ∀ key value, lastValue calls key = some value → endOfBuffer ∉ key
  · have hcalls : ∀ call ∈ writtenCalls calls, call ∈ calls :=
      fun call h => (List.rdropWhile_prefix _ _).subset h
    have hentries : ∀ entry ∈ (run (writtenCalls calls)).environmentVariables.toList,
        (ValidKey entry.1 ∧ endOfBuffer ∉ entry.1) ∧ newline ∉ entry.2 := by
      intro entry hentry
      rcases (mem_written_iff calls entry.1 entry.2).mp hentry with hvalue | ⟨hnone, hget, hempty⟩
      · obtain ⟨hkey, hline⟩ := hvalid _ (lastValue_mem hvalue)
        exact ⟨⟨hkey, hset _ _ hvalue⟩, hline⟩
      · rw [hempty]
        exact ⟨⟨hvalid _ (hcalls _ hget), hlookups _ (hcalls _ hget) hnone⟩, by simp⟩
    have hiff := readLines_iff (fun key => ∃ last, lastValue calls key = some last) (Or.inl rfl)
      (Std.TreeMap.distinct_keys_toList.imp fun h heq => h (by simp [heq]))
      (fun entry h => (hentries entry h).1) (fun entry h => (hentries entry h).2) (by
        intro entry hentry hnot
        rcases (mem_written_iff calls entry.1 entry.2).mp hentry with hvalue | ⟨-, -, hempty⟩
        · exact absurd ⟨_, hvalue⟩ hnot
        · exact hempty)
    simp only [mem_written_set_iff, written_pairwise_iff, ← reloaded_getElem?] at hiff
    constructor
    · intro h
      obtain ⟨hkept, hbehind⟩ := hiff.mp fun key value => by rw [h key]
      refine ⟨fun key value hvalue => ⟨hset key value hvalue, ?_⟩, hbehind⟩
      exact hkept (key, value) ((mem_written_iff calls key value).mpr (Or.inl hvalue)) ⟨_, hvalue⟩
    · rintro ⟨hkept, hbehind⟩ key
      refine Option.ext fun value => (hiff.mpr ⟨?_, hbehind⟩) key value
      rintro entry hentry hlast
      exact (hkept _ _ ((mem_written_set_iff calls entry.1 entry.2).mp ⟨hentry, hlast⟩)).2
  · -- no key with that byte is read at all
    push Not at hset
    obtain ⟨key, value, hvalue, hmem⟩ := hset
    refine iff_of_false (fun h => ?_) fun h => (h.1 key value hvalue).1 hmem
    have := h key
    rw [hvalue, reloaded_getElem?] at this
    rw [show (readLines [] _)[key]? = none from properties_key hmem] at this
    exact absurd this (by simp)

theorem reloaded_lookup_behind :
    lastValue [.getVariable [90], .setVariable [65] [49]] [65] = some [49] ∧
    ∀ key, (reloaded [.getVariable [90], .setVariable [65] [49]])[key]? =
      lastValue [.getVariable [90], .setVariable [65] [49]] key := by
  refine ⟨by decide, (reloaded_iff _ ?_ ?_).mpr ⟨?_, ?_⟩⟩
  · simp only [List.forall_mem_cons]
    refine ⟨?_, ⟨?_, by decide⟩, by simp⟩ <;> constructor <;> decide +kernel
  · intro key hget _
    obtain rfl : key = [90] := by simpa using hget
    decide
  · intro key value hvalue
    obtain ⟨rfl, rfl⟩ : key = [65] ∧ value = [49] := by simpa using lastValue_mem hvalue
    decide +kernel
  · intro key hget _ key' value hvalue
    obtain rfl : key = [90] := by simpa [writtenCalls, Call.isLookup, List.rdropWhile] using hget
    obtain ⟨rfl, -⟩ : key' = [65] ∧ value = [49] := by simpa using lastValue_mem hvalue
    decide

/-- `A` is looked up before `B` is set to `1`, or set to nothing: both lose the variable `B`. -/
theorem reloaded_lost :
    ((∀ call ∈ [Call.getVariable [65], .setVariable [66] [49]], ValidCall call) ∧
      lastValue [.getVariable [65], .setVariable [66] [49]] [66] = some [49] ∧
      (reloaded [.getVariable [65], .setVariable [66] [49]])[([66] : List UInt8)]? = none) ∧
    (∀ call ∈ [Call.setVariable [65] [], .setVariable [66] [49]], ValidCall call) ∧
      lastValue [.setVariable [65] [], .setVariable [66] [49]] [66] = some [49] ∧
      (reloaded [.setVariable [65] [], .setVariable [66] [49]])[([66] : List UInt8)]? = none := by
  have hkey : ∀ c : UInt8, c = 65 ∨ c = 66 → ValidKey [c] := by
    rintro c (rfl | rfl) <;> constructor <;> decide +kernel
  refine ⟨⟨?_, by decide, by decide +kernel⟩, ?_, by decide, by decide +kernel⟩
  · simp only [List.forall_mem_cons]
    exact ⟨hkey 65 (Or.inl rfl), ⟨hkey 66 (Or.inr rfl), by decide⟩, by simp⟩
  · simp only [List.forall_mem_cons]
    exact ⟨⟨hkey 65 (Or.inl rfl), by decide⟩, ⟨hkey 66 (Or.inr rfl), by decide⟩, by simp⟩

end MeetixOS.MxSh
