import MeetixOS.Userspace.ZipNET.ComponentRequests

/-! # Titles

`TitledComponent::set_title` and `title` of LibGUI with the requests `UI_PROTOCOL_SET_TITLE` and
`UI_PROTOCOL_GET_TITLE` of `EventProcessor::processCommand`. The UI is initialized, and a message arrives
as it was sent. What lies behind an array is not known, so a string that does not end in its array gives
`none`. -/

namespace MeetixOS.ZipNET.Titles

/-! ## The arrays -/

/-- `C_TITLE_LEN_MAX`. -/
def titleLenMax : Nat := 1024

/-- `titleLen`, the same on the side of the client and on that of the server. -/
def titleLen (title : List UInt8) : Nat :=
  if title.length ≥ titleLenMax then titleLenMax else title.length

/-- The indices of a `title` array that are written: by `memcpy`, then the terminator. -/
def titleWrites (title : List UInt8) : List Nat :=
  List.range (titleLen title) ++ [titleLen title]

/-- The array of a new request or response, whose fields are zero, behind these writes. -/
def titleArray (title : List UInt8) : List UInt8 :=
  let array := List.replicate titleLenMax 0
  (title.take (titleLen title) ++ array.drop (titleLen title)).set (titleLen title) 0

/-- The conversion of an array to `std::string`. -/
def stringOf (array : List UInt8) : Option (List UInt8) :=
  if 0 ∈ array then some (array.takeWhile (· ≠ 0)) else none

/-! ## The server -/

/-- The registry, the classes of the components, and the texts of the labels and text fields. -/
structure TitleServer where
  components : ComponentRegistry
  kind : Nat → Kind
  text : Nat → List UInt8

namespace TitleServer

/-- The component that keeps the title of a `TitledComponent_t`: windows, shapes and buttons have a
label for it. `none` where the `dynamic_cast` fails. -/
def titleHolder (s : TitleServer) (component : Nat) : Option Nat :=
  match s.kind component with
  | .label => some component
  | .textField => some component
  | .window label _ => some label
  | .geoshape _ label => some label
  | .button label => some label
  | _ => none

/-- The component of a request, as far as it has a title. -/
def titledComponent (s : TitleServer) (id : Int) : Option Nat :=
  (s.components.get id).bind s.titleHolder

def setTitle (s : TitleServer) (holder : Nat) (title : List UInt8) : TitleServer :=
  { s with text := Function.update s.text holder title }

/-- `UI_PROTOCOL_SET_TITLE`: the response is whether it succeeded. -/
def processSetTitle (s : TitleServer) (id : Int) (title : List UInt8) : Option (TitleServer × Bool) :=
  match s.titledComponent id with
  | none => some (s, false)
  | some holder => (stringOf title).map fun title => (s.setTitle holder title, true)

/-- `UI_PROTOCOL_GET_TITLE`: the array of the response, if it succeeded. -/
def processGetTitle (s : TitleServer) (id : Int) : Option (List UInt8) :=
  (s.titledComponent id).map fun holder => titleArray (s.text holder)

/-! ## The client -/

/-- `TitledComponent::set_title`. -/
def set_title (s : TitleServer) (id : Int) (title : List UInt8) : Option (TitleServer × Bool) :=
  s.processSetTitle id (titleArray title)

/-- `TitledComponent::title`. -/
def title (s : TitleServer) (id : Int) : Option (List UInt8) :=
  match s.processGetTitle id with
  | some array => stringOf array
  | none => some []

/-! ## Short titles -/

variable {s : TitleServer} {id : Int} {holder : Nat} {title : List UInt8}

theorem titleArray_eq (h : title.length < titleLenMax) :
    titleArray title = title ++ List.replicate (titleLenMax - title.length) 0 := by
  have hlen : titleLen title = title.length := if_neg (Nat.not_le.2 h)
  have hpad : List.replicate (titleLenMax - title.length) (0 : UInt8) =
      0 :: List.replicate (titleLenMax - title.length - 1) 0 := by
    rw [← List.replicate_succ, Nat.sub_add_cancel (Nat.sub_pos_of_lt h)]
  simp [titleArray, hlen, hpad, List.drop_replicate]

theorem stringOf_titleArray (hnul : 0 ∉ title) (h : title.length < titleLenMax) :
    stringOf (titleArray title) = some title := by
  have hpos : titleLenMax - title.length ≠ 0 := by omega
  rw [titleArray_eq h, stringOf, if_pos (by simp [hpos])]
  rw [List.takeWhile_append_of_pos (fun b hb => by simpa using ne_of_mem_of_not_mem hb hnul)]
  simp

theorem titleWrites_lt_iff :
    (∀ index ∈ titleWrites title, index < titleLenMax) ↔ title.length < titleLenMax := by
  constructor
  · intro h
    have hlast := h (titleLen title) (List.mem_append_right _ List.mem_cons_self)
    by_contra hlong
    rw [titleLen, if_pos (Nat.le_of_not_lt hlong)] at hlast
    exact Nat.lt_irrefl _ hlast
  · intro h index hindex
    have hlen : titleLen title = title.length := if_neg (Nat.not_le.2 h)
    rw [titleWrites, hlen] at hindex
    rcases List.mem_append.1 hindex with hcopy | hend
    · exact (List.mem_range.1 hcopy).trans h
    · rwa [List.mem_singleton.1 hend]

/-- The title is set and comes back as it was cut, and no array is left by a write. -/
def TitleKept (s : TitleServer) (id : Int) (title : List UInt8) : Prop :=
  (∀ index ∈ titleWrites title, index < titleLenMax) ∧
    ∃ s', s.set_title id title = some (s', true) ∧
      s'.title id = some (title.take (min title.length (titleLenMax - 1))) ∧
      ∀ holder, s'.titledComponent id = some holder →
        ∀ index ∈ titleWrites (s'.text holder), index < titleLenMax

end TitleServer

open TitleServer

/-- A title of a titled component comes back, and is written where it may, exactly when it leaves room
for the terminator. -/
theorem titleKept_iff (s : TitleServer) (id : Int) (title : List UInt8) (hnul : 0 ∉ title)
    (htitled : (s.titledComponent id).isSome) : s.TitleKept id title ↔ title.length ≤ 1023 := by
  rw [← Nat.lt_succ_iff]
  constructor
  · rintro ⟨hwrites, -⟩
    exact titleWrites_lt_iff.1 hwrites
  · intro h
    obtain ⟨holder, hholder⟩ := Option.isSome_iff_exists.1 htitled
    have hback := stringOf_titleArray hnul h
    have hholder' : (s.setTitle holder title).titledComponent id = some holder := hholder
    have htext : (s.setTitle holder title).text holder = title := Function.update_self ..
    refine ⟨titleWrites_lt_iff.2 h, s.setTitle holder title, ?_, ?_, ?_⟩
    · simp [set_title, processSetTitle, hholder, hback]
    · have hcut : min title.length (titleLenMax - 1) = title.length :=
        min_eq_left (Nat.le_of_lt_succ h)
      rw [TitleServer.title, processGetTitle, hholder', Option.map_some, htext, hcut, List.take_length]
      exact hback
    · intro other hother
      obtain rfl : holder = other := Option.mem_unique hholder' hother
      rw [htext]
      exact titleWrites_lt_iff.2 h

/-- A label with the id 1. -/
def oneLabel : TitleServer where
  components := (({} : ComponentRegistry).add 7 0).1
  kind _ := .label
  text _ := []

theorem titleKept_iff_hello : oneLabel.TitleKept 1 [104, 101, 108, 108, 111] :=
  (titleKept_iff oneLabel 1 _ (by decide) (by rfl)).2 (by decide)

/-- A title of 1024 bytes is terminated behind the array. -/
theorem titleWrites_at_titleLenMax :
    ¬∀ index ∈ titleWrites (List.replicate 1024 65), index < titleLenMax := by
  rw [titleWrites_lt_iff, List.length_replicate]
  decide

end MeetixOS.ZipNET.Titles
