import Mathlib.Data.List.DropRight
import Mathlib.Tactic
import Std.Data.TreeMap.Lemmas

/-! # The parser of property files

`PropertyFileParser` reads lines of the form `key=value` into a map. It trims keys and values,
takes a pair of quotes off a value, and ends at the first entry whose key or value is empty. A
`std::map` is a `Std.TreeMap`: both keep their entries in the order of the keys, strings compare
byte by byte. -/

namespace MeetixOS.LibUtils

/-- The characters `" \f\n\r\t\v"` that `trim` takes off. -/
def isBlank (c : UInt8) : Bool := [32, 12, 10, 13, 9, 11].contains c

/-- `Utils::trim`. A string of blanks alone has no first character that is none, and is returned as it
is. -/
def trim (str : List UInt8) : List UInt8 :=
  if str.all isBlank then str else (str.dropWhile isBlank).rdropWhile isBlank

/-- The value `-1` of the parser's `char m_char` at the end of the buffer; a byte `0xFF` of the buffer
reads the same. -/
def endOfBuffer : UInt8 := 0xFF

/-- The byte `'='`. -/
def equals : UInt8 := 61

/-- The byte `':'`. -/
def colon : UInt8 := 58

/-- The byte `'\n'`. -/
def newline : UInt8 := 10

/-- The byte `'"'`. -/
def quote : UInt8 := 34

/-- A character that the loop of `read_key` takes. -/
def keyByte (c : UInt8) : Bool := c != endOfBuffer && c != equals && c != colon

/-- A character that the loop of `read_value` takes. -/
def valueByte (c : UInt8) : Bool := c != endOfBuffer && c != newline

/-- A value of at least two characters that starts and ends with a quote. -/
def Quoted (value : List UInt8) : Prop :=
  1 < value.length ∧ value.head? = some quote ∧ value.getLast? = some quote

instance (value : List UInt8) : Decidable (Quoted value) :=
  inferInstanceAs (Decidable (_ ∧ _ ∧ _))

/-- The end of `read_value`: the pair of quotes is taken off. -/
def unquote (value : List UInt8) : List UInt8 :=
  if Quoted value then value.tail.dropLast else value

/-- `property_entry`, at the buffer from the current character on: key, value and the buffer behind, or
`none` where the key or the value is empty. -/
def propertyEntry (buffer : List UInt8) : Option (List UInt8 × List UInt8 × List UInt8) :=
  let key := trim (buffer.takeWhile keyByte)
  if key = [] then none
  else
    let behind := (buffer.dropWhile keyByte).tail
    let value := unquote (trim (behind.takeWhile valueByte))
    if value = [] then none else some (key, value, behind.dropWhile valueByte)

variable {key rest value buffer : List UInt8}

theorem propertyEntry_length
    (h : propertyEntry buffer = some (key, value, rest)) : rest.length < buffer.length := by
  simp only [propertyEntry] at h
  split_ifs at h with hkey hvalue
  obtain ⟨-, -, rfl⟩ := h
  have hne : buffer.takeWhile keyByte ≠ [] := by
    intro hnil
    rw [hnil] at hkey
    exact hkey rfl
  have hpos := List.length_pos_of_ne_nil hne
  have happ := congrArg List.length (List.takeWhile_append_dropWhile (p := keyByte) (l := buffer))
  rw [List.length_append] at happ
  have hdrop := List.length_dropWhile_le valueByte (buffer.dropWhile keyByte).tail
  rw [List.length_tail] at hdrop
  omega

/-- The map `std::map<std::string, std::string>`. -/
abbrev Properties := Std.TreeMap (List UInt8) (List UInt8)

theorem getElem?_insertIfNew_or (properties : Properties) (key value key' : List UInt8) :
    (properties.insertIfNew key value)[key']? =
      properties[key']?.or (if key = key' then some value else none) := by
  simp only [Std.TreeMap.getElem?_insertIfNew, Std.LawfulEqCmp.compare_eq_iff_eq]
  by_cases hmem : key' ∈ properties
  · obtain ⟨v, hv⟩ : ∃ v, properties[key']? = some v :=
      Option.isSome_iff_exists.mp (by simpa using hmem)
    rw [if_neg (fun h => h.2 (h.1 ▸ hmem)), hv]
    rfl
  · rw [Std.TreeMap.getElem?_eq_none hmem, Option.none_or]
    refine if_congr ?_ rfl rfl
    exact ⟨And.left, fun h => ⟨h, h ▸ hmem⟩⟩

/-- The loop of `properties`; `insert` of a `std::map` leaves an entry that is there. -/
def propertiesLoop (properties : Properties) (buffer : List UInt8) : Properties :=
  match _h : propertyEntry buffer with
  | none => properties
  | some (key, value, rest) => propertiesLoop (properties.insertIfNew key value) rest
termination_by buffer.length
decreasing_by exact propertyEntry_length _h

theorem propertiesLoop_none (properties : Properties)
    (h : propertyEntry buffer = none) : propertiesLoop properties buffer = properties := by
  rw [propertiesLoop]
  split
  · rfl
  · next key value rest h' =>
      rw [h] at h'
      exact absurd h' (by simp)

theorem propertiesLoop_some (properties : Properties)
    (h : propertyEntry buffer = some (key, value, rest)) :
    propertiesLoop properties buffer =
      propertiesLoop (properties.insertIfNew key value) rest := by
  conv_lhs => rw [propertiesLoop]
  split
  · next h' =>
      rw [h] at h'
      exact absurd h' (by simp)
  · next key' value' rest' h' =>
      have heq := Option.mem_unique h h'
      obtain ⟨rfl, rfl, rfl⟩ := heq
      rfl

/-- `PropertyFileParser::properties` on a file's content. -/
def properties (content : List UInt8) : Properties := propertiesLoop ∅ content

example : (properties [97, 61, 32, 98, 10, 99, 58, 34, 100, 34]).toList =
    [([97], [98]), ([99], [100])] := by decide +kernel

/-! ## Trimming -/

/-- A string that `trim` leaves alone: blanks only, or no blank at either end. -/
def Trimmed (str : List UInt8) : Prop :=
  (∀ c ∈ str, isBlank c = true) ∨
    ((∀ c ∈ str.head?, isBlank c = false) ∧ ∀ c ∈ str.getLast?, isBlank c = false)

instance (str : List UInt8) : Decidable (Trimmed str) :=
  inferInstanceAs (Decidable (_ ∨ (_ ∧ _)))

theorem trim_sublist (str : List UInt8) : (trim str).Sublist str := by
  unfold trim
  split_ifs
  · exact List.Sublist.refl _
  · exact (List.rdropWhile_prefix _ _).sublist.trans (List.dropWhile_suffix _).sublist

theorem trim_append (lead : List UInt8) {str : List UInt8} (hlead : ∀ c ∈ lead, isBlank c = true)
    (hne : str ≠ []) (hhead : ∀ c ∈ str.head?, isBlank c = false)
    (hlast : ∀ c ∈ str.getLast?, isBlank c = false) : trim (lead ++ str) = str := by
  have hdrop : (lead ++ str).dropWhile isBlank = str := by
    rw [List.dropWhile_append_of_pos hlead]
    cases str with
    | nil => exact absurd rfl hne
    | cons c str => simp [hhead c (by simp)]
  have hall : ¬ (lead ++ str).all isBlank = true := by
    intro hall
    have hc := hhead (str.head hne) (by simp [List.head?_eq_some_head hne])
    have := List.all_eq_true.mp hall (str.head hne) (by simp)
    rw [this] at hc
    exact absurd hc (by simp)
  unfold trim
  rw [if_neg hall, hdrop]
  refine List.rdropWhile_eq_self_iff.mpr fun hl => ?_
  have := hlast (str.getLast hl) (by simp [List.getLast?_eq_some_getLast hl])
  simp [this]

theorem trim_eq_self_iff (str : List UInt8) : trim str = str ↔ Trimmed str := by
  constructor
  · intro h
    by_cases hall : str.all isBlank
    · exact Or.inl (List.all_eq_true.mp hall)
    · simp only [trim, if_neg hall] at h
      -- neither end loses a character
      have hle := (List.rdropWhile_prefix isBlank (str.dropWhile isBlank)).length_le
      have hfront : str.dropWhile isBlank = str := by
        refine (List.dropWhile_suffix _).eq_of_length ?_
        have := List.length_dropWhile_le isBlank str
        rw [h] at hle
        omega
      rw [hfront] at h
      refine Or.inr ⟨fun c hc => ?_, fun c hc => ?_⟩
      · cases str with
        | nil => simp at hc
        | cons d str =>
          obtain rfl : d = c := by simpa using hc
          have := List.dropWhile_eq_self_iff.mp hfront (by simp)
          rwa [List.getElem_cons_zero, Bool.not_eq_true] at this
      · have hne : str ≠ [] := by
          rintro rfl
          simp at hc
        obtain rfl : str.getLast hne = c := by
          simpa [List.getLast?_eq_some_getLast hne] using hc
        simpa using List.rdropWhile_eq_self_iff.mp h hne
  · rintro (hall | ⟨hhead, hlast⟩)
    · simp [trim, List.all_eq_true.mpr hall]
    · by_cases hne : str = []
      · simp [hne, trim]
      · exact trim_append [] (by simp) hne hhead hlast

/-! ## The value read back -/

theorem unquote_length (value : List UInt8) : (unquote value).length ≤ value.length := by
  unfold unquote
  split_ifs
  · simp only [List.length_dropLast, List.length_tail]
    omega
  · exact Nat.le_refl _

theorem unquote_eq_self_iff (value : List UInt8) : unquote value = value ↔ ¬ Quoted value := by
  unfold unquote
  split_ifs with hquoted
  · have hlen := hquoted.1
    simp only [not_true_eq_false, iff_false, hquoted]
    intro h
    have := congrArg List.length h
    simp only [List.length_dropLast, List.length_tail] at this
    omega
  · simp [hquoted]

/-- What is read of a value written to a line. -/
def readValue (value : List UInt8) : List UInt8 :=
  unquote (trim (value.takeWhile (· != endOfBuffer)))

/-- A value that is read back as written: not empty, no byte that ends the buffer, no outer blanks
and no quotes. -/
def KeptValue (value : List UInt8) : Prop :=
  value ≠ [] ∧ endOfBuffer ∉ value ∧ Trimmed value ∧ ¬ Quoted value

instance (value : List UInt8) : Decidable (KeptValue value) :=
  inferInstanceAs (Decidable (_ ∧ _ ∧ _ ∧ _))

theorem keptValue_iff (value : List UInt8) :
    KeptValue value ↔ readValue value = value ∧ value ≠ [] := by
  have htake := (List.takeWhile_prefix (· != endOfBuffer) (l := value)).length_le
  have htrim := (trim_sublist (value.takeWhile (· != endOfBuffer))).length_le
  have hunquote := unquote_length (trim (value.takeWhile (· != endOfBuffer)))
  constructor
  · rintro ⟨hne, hend, htrimmed, hquoted⟩
    have hall : value.takeWhile (· != endOfBuffer) = value := by
      rw [List.takeWhile_eq_self_iff]
      intro c hc
      have : c ≠ endOfBuffer := fun heq => hend (heq ▸ hc)
      simpa using this
    refine ⟨?_, hne⟩
    unfold readValue
    rw [hall, (trim_eq_self_iff value).mpr htrimmed]
    exact (unquote_eq_self_iff value).mpr hquoted
  · rintro ⟨hread, hne⟩
    unfold readValue at hread
    have hlen := congrArg List.length hread
    -- no step of the reading can shorten the value
    have hall : value.takeWhile (· != endOfBuffer) = value :=
      (List.takeWhile_prefix _).eq_of_length (by omega)
    rw [hall] at hread htrim hunquote
    have htrimmed : trim value = value := by
      refine (trim_sublist value).eq_of_length ?_
      rw [hread] at hunquote
      omega
    rw [htrimmed] at hread
    refine ⟨hne, fun hmem => ?_, (trim_eq_self_iff value).mp htrimmed,
      (unquote_eq_self_iff value).mp hread⟩
    have := List.takeWhile_eq_self_iff.mp hall endOfBuffer hmem
    simp at this

/-! ## Reading lines back -/

/-- A key of a line: not empty, without the characters that separate keys from values and lines from
each other, and without blanks at its ends. -/
structure ValidKey (key : List UInt8) : Prop where
  ne_nil : key ≠ []
  no_equals : equals ∉ key
  no_colon : colon ∉ key
  no_newline : newline ∉ key
  head_not_blank : ∀ c ∈ key.head?, isBlank c = false
  last_not_blank : ∀ c ∈ key.getLast?, isBlank c = false

/-- What stands before a key: nothing in the first line, the end of the line before it in the others,
where `read_value` stopped. -/
def LineStart (lead : List UInt8) : Prop := lead = [] ∨ lead = [newline]

theorem takeWhile_value (hvalue : newline ∉ value) (rest : List UInt8) :
    (value ++ newline :: rest).takeWhile valueByte = value.takeWhile (· != endOfBuffer) := by
  induction value with
  | nil => rfl
  | cons c value ih =>
    have hc : c ≠ newline := fun h => hvalue (h ▸ List.mem_cons_self)
    have ih' := ih fun h => hvalue (List.mem_cons_of_mem _ h)
    by_cases hend : c = endOfBuffer
    · simp [valueByte, hend]
    · have hv : valueByte c = true := by simp [valueByte, hend, hc]
      simp [hv, hend, ih']

theorem dropWhile_value (hvalue : newline ∉ value) (rest : List UInt8) :
    (endOfBuffer ∉ value ∧ (value ++ newline :: rest).dropWhile valueByte = newline :: rest) ∨
      (endOfBuffer ∈ value ∧
        ((value ++ newline :: rest).dropWhile valueByte).head? = some endOfBuffer) := by
  induction value with
  | nil => exact Or.inl ⟨by simp, rfl⟩
  | cons c value ih =>
    have hc : c ≠ newline := fun h => hvalue (h ▸ List.mem_cons_self)
    have ih' := ih fun h => hvalue (List.mem_cons_of_mem _ h)
    by_cases hend : c = endOfBuffer
    · exact Or.inr (by simp [valueByte, hend])
    · have hne : endOfBuffer ≠ c := fun h => hend h.symm
      have hv : valueByte c = true := by simp [valueByte, hend, hc]
      simpa [hv, hne] using ih'

theorem propertyEntry_line {lead key value : List UInt8} (rest : List UInt8)
    (hlead : LineStart lead) (hkey : ValidKey key) (hend : endOfBuffer ∉ key)
    (hvalue : newline ∉ value) :
    propertyEntry (lead ++ (key ++ equals :: (value ++ newline :: rest))) =
      if readValue value = [] then none
      else some (key, readValue value, (value ++ newline :: rest).dropWhile valueByte) := by
  have hbytes : ∀ c ∈ lead ++ key, keyByte c = true := by
    intro c hc
    rcases List.mem_append.mp hc with hc | hc
    · rcases hlead with rfl | rfl
      · simp at hc
      · obtain rfl := List.mem_singleton.mp hc
        decide
    · have h1 : c ≠ endOfBuffer := fun h => hend (h ▸ hc)
      have h2 : c ≠ equals := fun h => hkey.no_equals (h ▸ hc)
      have h3 : c ≠ colon := fun h => hkey.no_colon (h ▸ hc)
      simp [keyByte, h1, h2, h3]
  have hstop : keyByte equals = false := by decide
  have htake : (lead ++ (key ++ equals :: (value ++ newline :: rest))).takeWhile keyByte =
      lead ++ key := by
    rw [← List.append_assoc, List.takeWhile_append_of_pos hbytes]
    simp [hstop]
  have hdrop : (lead ++ (key ++ equals :: (value ++ newline :: rest))).dropWhile keyByte =
      equals :: (value ++ newline :: rest) := by
    rw [← List.append_assoc, List.dropWhile_append_of_pos hbytes]
    simp [hstop]
  have htrim : trim (lead ++ key) = key := by
    refine trim_append lead ?_ hkey.ne_nil hkey.head_not_blank hkey.last_not_blank
    rcases hlead with rfl | rfl
    · simp
    · decide +kernel
  have hread := takeWhile_value hvalue rest
  simp only [propertyEntry, htake, hdrop, htrim, if_neg hkey.ne_nil, List.tail_cons, hread]
  rfl

theorem propertiesLoop_end (properties : Properties)
    (h : buffer.head?.getD endOfBuffer = endOfBuffer) :
    propertiesLoop properties buffer = properties := by
  have hnone : propertyEntry buffer = none := by
    cases buffer with
    | nil => rfl
    | cons c buffer =>
      obtain rfl : c = endOfBuffer := by simpa using h
      simp [propertyEntry, keyByte, trim]
  exact propertiesLoop_none properties hnone

theorem propertiesLoop_getElem? (properties : Properties) (buffer key : List UInt8) :
    (propertiesLoop properties buffer)[key]? =
      properties[key]?.or (propertiesLoop ∅ buffer)[key]? := by
  induction hn : buffer.length using Nat.strong_induction_on generalizing properties buffer with
  | _ n ih =>
    cases h : propertyEntry buffer with
    | none =>
      rw [propertiesLoop_none _ h, propertiesLoop_none _ h]
      simp
    | some entry =>
      obtain ⟨key', value, rest⟩ := entry
      have hlt := propertyEntry_length h
      rw [propertiesLoop_some _ h, propertiesLoop_some _ h, ih _ (hn ▸ hlt) _ rest rfl,
        ih _ (hn ▸ hlt) (Std.TreeMap.insertIfNew ∅ key' value) rest rfl,
        getElem?_insertIfNew_or, getElem?_insertIfNew_or, Std.TreeMap.getElem?_emptyc,
        Option.none_or, Option.or_assoc]

theorem propertyEntry_key
    (h : propertyEntry buffer = some (key, value, rest)) : endOfBuffer ∉ key := by
  simp only [propertyEntry] at h
  split_ifs at h
  obtain ⟨rfl, -, -⟩ := h
  intro hmem
  have := List.mem_takeWhile_imp ((trim_sublist _).subset hmem)
  simp [keyByte] at this

theorem properties_key {content key : List UInt8} (h : endOfBuffer ∈ key) :
    (properties content)[key]? = none := by
  unfold properties
  induction hn : content.length using Nat.strong_induction_on generalizing content with
  | _ n ih =>
    cases hentry : propertyEntry content with
    | none =>
      rw [propertiesLoop_none _ hentry]
      simp
    | some entry =>
      obtain ⟨key', value, rest⟩ := entry
      have hlt := propertyEntry_length hentry
      have hne : key' ≠ key := fun heq => propertyEntry_key hentry (heq ▸ h)
      rw [propertiesLoop_some _ hentry, propertiesLoop_getElem?, ih _ (hn ▸ hlt) rfl,
        getElem?_insertIfNew_or]
      simp [hne]

end MeetixOS.LibUtils
