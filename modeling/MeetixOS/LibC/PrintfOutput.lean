import MeetixOS.LibC.Vcbprintf
import Mathlib.Data.Nat.Digits.Lemmas

/-! # What `vcbprintf` prints

Each conversion prints bytes that depend on its directive and its argument alone (`Item.output`), and a
format prints those of its items, one after the other. -/

open MeetixOS.Kernel (s32 s32_of_range)

namespace LibC

open Printed

/-! ## Numerals -/

/-- The digits of a number. -/
def numeral (base : Nat) (digits : List UInt8) (value : Nat) : List UInt8 :=
  if value = 0 then [digits.getD 0 0]
  else (Nat.digits base value).reverse.map fun d : Nat => digits.getD d 0

section

variable {base value : Nat} {digits : List UInt8}

theorem numeral_of_lt (h : value < base) : numeral base digits value = [digits.getD value 0] := by
  unfold numeral
  split
  next hzero => rw [hzero]
  next hne => rw [Nat.digits_of_lt base value hne h]; rfl

theorem numeral_of_le (hbase : 1 < base) (h : base ≤ value) :
    numeral base digits value =
      numeral base digits (value / base) ++ [digits.getD (value % base) 0] := by
  have hpos : 0 < value := by omega
  have hquot : value / base ≠ 0 := Nat.ne_of_gt (Nat.div_pos h (by omega))
  rw [numeral, numeral, if_neg (by omega), if_neg hquot, Nat.digits_def' hbase hpos]
  simp

theorem numeral_length_pos : 0 < (numeral base digits value).length := by
  unfold numeral
  split
  next => exact Nat.zero_lt_one
  next hne =>
    rw [List.length_map, List.length_reverse, List.length_pos_iff]
    exact Nat.digits_ne_nil_iff_ne_zero.2 hne

theorem numeral_length_le {k : Nat} (hbase : 1 < base) (hk : 0 < k) (h : value < base ^ k) :
    (numeral base digits value).length ≤ k := by
  unfold numeral
  split
  next => exact hk
  next =>
    rw [List.length_map, List.length_reverse]
    exact (Nat.digits_length_le_iff hbase value).2 h

theorem countDigits_eq (digits : List UInt8) (count : Nat) (hbase : 1 < base) {fuel : Nat}
    (h : value < base ^ (fuel + 1)) :
    countDigits base fuel value count + 1 = count + (numeral base digits value).length := by
  induction fuel generalizing value count with
  | zero =>
    rw [numeral_of_lt (by simpa using h)]
    rfl
  | succ fuel ih =>
    rw [countDigits]
    split
    next hle =>
      have hquot : value / base < base ^ (fuel + 1) := by
        rw [Nat.div_lt_iff_lt_mul (by omega), ← Nat.pow_succ]
        exact h
      rw [ih _ hquot, numeral_of_le hbase hle, List.length_append]
      simp
      omega
    next hlt =>
      rw [numeral_of_lt (by omega)]
      rfl

theorem writeDigits_eq (hbase : 1 < base) {i : Nat} {out : List UInt8}
    (hi : i = (numeral base digits value).length) (hout : i ≤ out.length) :
    writeDigits base digits i value out = .ok (numeral base digits value ++ out.drop i) := by
  induction i generalizing value out with
  | zero => exact absurd hi (Nat.ne_of_lt numeral_length_pos)
  | succ i ih =>
    have hset : (out.set i (digits.getD (value % base) 0)).drop i =
        digits.getD (value % base) 0 :: out.drop (i + 1) := by
      rw [List.drop_eq_getElem_cons (by simpa using hout), List.getElem_set_self,
        List.drop_set_of_lt (Nat.lt_succ_self i)]
    rw [writeDigits, if_pos (show i < out.length from hout)]
    by_cases hlt : value < base
    · have hone : i = 0 := by
        rw [numeral_of_lt hlt] at hi
        simpa using hi
      subst hone
      rw [writeDigits, numeral_of_lt hlt, ← List.drop_zero (l := out.set _ _), hset,
        Nat.mod_eq_of_lt hlt]
      rfl
    · have hle : base ≤ value := by omega
      rw [numeral_of_le hbase hle, List.length_append, List.length_singleton] at hi
      rw [ih (Nat.succ.inj hi) (by simp; omega), hset, numeral_of_le hbase hle, List.append_assoc]
      rfl

theorem integerToString_eq (digits : List UInt8) (hbase : 8 ≤ base) (hvalue : value < 2 ^ 64) :
    ∃ buffer, integerToString (List.replicate 24 0) value base digits =
        .ok ((numeral base digits value).length, buffer) ∧
      buffer.take (numeral base digits value).length = numeral base digits value := by
  have hbase' : 1 < base := by omega
  have hrounds : value < base ^ (64 + 1) :=
    Nat.lt_of_lt_of_le hvalue ((Nat.pow_le_pow_left hbase' 64).trans
      (Nat.pow_le_pow_right (by omega) (by omega)))
  have hcount := countDigits_eq digits 1 hbase' hrounds
  have hfits : (numeral base digits value).length ≤ 24 := by
    refine numeral_length_le hbase' (by omega) (Nat.lt_of_lt_of_le hvalue ?_)
    exact Nat.le_trans (by norm_num) (Nat.pow_le_pow_left hbase 24)
  have hlength : countDigits base 64 value 1 = (numeral base digits value).length := by omega
  have hwritten : writeDigits base digits (numeral base digits value).length value
      (List.replicate 24 0) = .ok (numeral base digits value ++
        (List.replicate 24 0).drop (numeral base digits value).length) :=
    writeDigits_eq hbase' rfl (by simpa using hfits)
  refine ⟨numeral base digits value ++ (List.replicate 24 0).drop (numeral base digits value).length,
    ?_, List.take_left⟩
  unfold integerToString
  rw [hlength]
  show (writeDigits _ _ _ _ _ >>= _) = _
  rw [hwritten]
  rfl

end

/-! ## Conversions -/

/-- What was printed, with `written` counted along. -/
def Printed.after (output : List UInt8) : Printed := ⟨s32 output.length, output⟩

@[simp] theorem Printed.emit_after (output bytes : List UInt8) :
    (after output).emit bytes = .after (output ++ bytes) := by
  rw [emit, after, after, s32_s32_add, List.length_append]
  rfl

@[simp] theorem Printed.pad_after (c : UInt8) (n : Nat) (output : List UInt8) :
    (after output).pad c n = .after (output ++ List.replicate n c) := by
  induction n generalizing output with
  | zero => simp [pad]
  | succ n ih => rw [pad, emit_after, ih, List.append_assoc, List.replicate_succ]; rfl

theorem unsigned_sub {n : Int} {k : Nat} (h : k ≤ unsigned n) : unsigned (n - k) = unsigned n - k := by
  unfold unsigned at *
  omega

section

variable (directive : Directive) (isNegative : Bool) (value : Nat)

/-- The sign, or what stands for it. -/
def Directive.sign : List UInt8 :=
  if isNegative then [ch '-']
  else if directive.flags.alwaysPrependSign then [ch '+']
  else if directive.flags.alwaysPrependSpacePlusSign then [ch ' ']
  else []

/-- What `#` puts in front of the digits. -/
def Directive.marker : List UInt8 :=
  if directive.flags.force0xOrDec && directive.isHexadecimal then
    [ch '0', if directive.specifier = ch 'x' then ch 'x' else ch 'X']
  else if directive.flags.force0xOrDec && directive.specifier = ch 'o' then [ch '0']
  else []

def Directive.numeral : List UInt8 := LibC.numeral directive.base directive.digits value

/-- The bytes of a number without its padding. -/
def Directive.numberLength : Nat :=
  (directive.sign isNegative).length + directive.marker.length + (directive.numeral value).length

/-- The bytes of a number. -/
def Directive.numberOutput : List UInt8 :=
  let padding := unsigned directive.width - directive.numberLength isNegative value
  if directive.flags.leftJustify then
    directive.sign isNegative ++ directive.marker ++ directive.numeral value ++
      List.replicate padding (ch ' ')
  else if directive.flags.leftPadZeroes then
    directive.sign isNegative ++ List.replicate padding (ch '0') ++ directive.marker ++
      directive.numeral value
  else
    List.replicate padding (ch ' ') ++ directive.sign isNegative ++ directive.marker ++
      directive.numeral value

theorem Directive.base_ge : 8 ≤ directive.base := by
  unfold Directive.base
  split_ifs <;> omega

theorem Directive.sign_length : (directive.sign isNegative).length =
    if directive.flags.alwaysPrependSign ∨ directive.flags.alwaysPrependSpacePlusSign ∨ isNegative then 1
    else 0 := by
  unfold Directive.sign
  cases isNegative <;> cases directive.flags.alwaysPrependSign <;>
    cases directive.flags.alwaysPrependSpacePlusSign <;> rfl

theorem Directive.marker_length : directive.marker.length =
    (if directive.flags.force0xOrDec ∧ directive.isHexadecimal then 2 else 0) +
      (if directive.flags.force0xOrDec ∧ directive.specifier = ch 'o' then 1 else 0) := by
  unfold Directive.marker
  cases directive.flags.force0xOrDec with
  | false => rfl
  | true =>
    cases hhex : directive.isHexadecimal with
    | false => by_cases ho : directive.specifier = ch 'o' <;> simp [ho]
    | true =>
      have ho : directive.specifier ≠ ch 'o' := by
        intro ho
        rw [Directive.isHexadecimal, ho] at hhex
        exact absurd hhex (by decide)
      simp [ho]

theorem padding_eq (width : Int) (len additional : Nat) :
    unsigned ((if unsigned width < len + additional then ((len + additional : Nat) : Int) else width) -
      len - additional) = unsigned width - (additional + len) := by
  rw [Int.sub_sub, ← Nat.cast_add]
  split
  next hlt =>
    rw [Int.sub_self, Nat.sub_eq_zero_of_le (by omega)]
    rfl
  next hge => rw [unsigned_sub (by omega), Nat.add_comm len]

theorem pad_after_if (b : Bool) (c : UInt8) (n : Nat) (output : List UInt8) :
    (if b = true then (after output).pad c n else .after output) =
      .after (output ++ if b = true then List.replicate n c else []) := by
  cases b with
  | false => simp
  | true => exact pad_after c n output

theorem Directive.emit_sign (output : List UInt8) :
    (if isNegative = true then (after output).emit [ch '-']
      else if directive.flags.alwaysPrependSign = true then (after output).emit [ch '+']
      else if directive.flags.alwaysPrependSpacePlusSign = true then
        (after output).emit [ch ' ']
      else .after output) = .after (output ++ directive.sign isNegative) := by
  unfold Directive.sign
  split_ifs <;> simp

theorem Directive.emit_marker (output : List UInt8) :
    (if (directive.flags.force0xOrDec && directive.isHexadecimal) = true then
        ((after output).emit [ch '0']).emit
          [if directive.specifier = ch 'x' then ch 'x' else ch 'X']
      else if (directive.flags.force0xOrDec && directive.specifier = ch 'o') = true then
        (after output).emit [ch '0']
      else .after output) = .after (output ++ directive.marker) := by
  unfold Directive.marker
  split_ifs <;> simp

theorem printNumber_eq (hvalue : value < 2 ^ 64) (output : List UInt8) :
    printNumber directive isNegative value (.after output) =
      .ok (.after (output ++ directive.numberOutput isNegative value)) := by
  obtain ⟨buffer, hrun, htake⟩ :=
    integerToString_eq directive.digits directive.base_ge hvalue
  have hsign := directive.sign_length isNegative
  have hmarker := directive.marker_length
  unfold printNumber
  rw [hrun]
  show Except.ok _ = _
  congr 1
  simp only [htake, Nat.add_assoc, ← hsign, ← hmarker, padding_eq, pad_after_if,
    Directive.emit_sign, Directive.emit_marker]
  unfold Directive.numberOutput Directive.numberLength Directive.numeral
  cases directive.flags.leftJustify with
  | true => simp [Nat.add_assoc]
  | false => cases directive.flags.leftPadZeroes <;> simp [Nat.add_assoc]

end

section

variable (directive : Directive)

/-- The bytes of a character. -/
def Directive.characterOutput (value : UInt8) : List UInt8 :=
  let padding := (s32 (directive.width - 1)).toNat
  if directive.flags.leftJustify then value :: List.replicate padding (ch ' ')
  else List.replicate padding (ch ' ') ++ [value]

theorem printCharacter_eq (value : UInt8) (output : List UInt8) :
    printCharacter directive value (.after output) =
      .after (output ++ directive.characterOutput value) := by
  unfold printCharacter Directive.characterOutput
  cases directive.flags.leftJustify <;> simp

/-- How many characters of a string are printed. -/
def Directive.taken (len : Nat) : Nat :=
  if directive.explicitPrecision then min len (unsigned directive.precision) else len

/-- How many blanks a precision adds behind a shorter string. -/
def Directive.filled (len : Nat) : Nat :=
  if directive.explicitPrecision then unsigned directive.precision - len else 0

/-- The bytes of a string. -/
def Directive.stringOutput (value : List UInt8) : List UInt8 :=
  let len := value.length
  if directive.flags.leftJustify then
    value.take (directive.taken len) ++ List.replicate (directive.filled len) (ch ' ') ++
      List.replicate (max (unsigned directive.width) len - directive.taken len) (ch ' ')
  else
    List.replicate (unsigned directive.width - len) (ch ' ') ++ value.take (directive.taken len) ++
      List.replicate (directive.filled len) (ch ' ')

theorem unsigned_s32_sub {len k : Nat} (hlen : len < 2 ^ 32) (hk : k ≤ len) :
    unsigned (s32 len - k) = len - k := by
  rw [s32, Int.bmod_def, unsigned]
  omega

theorem string_padding_eq {width : Int} {len k : Nat} (hlen : len < 2 ^ 32) (hk : k ≤ len) :
    unsigned ((if unsigned width < len then s32 len else width) - k) = max (unsigned width) len - k := by
  split
  next hlt => rw [unsigned_s32_sub hlen hk, Nat.max_eq_right (by omega)]
  next hge => rw [unsigned_sub (by omega), Nat.max_eq_left (by omega)]

theorem printString_eq (value : CString) (output : List UInt8) :
    printString directive value (.after output) =
      .after (output ++ directive.stringOutput value.bytes) := by
  have hlen := value.length_lt
  have htaken : (if (directive.explicitPrecision &&
      unsigned directive.precision < value.bytes.length) = true then unsigned directive.precision
      else value.bytes.length) = directive.taken value.bytes.length := by
    unfold Directive.taken
    cases directive.explicitPrecision with
    | false => rfl
    | true =>
      simp only [Bool.true_and, decide_eq_true_eq, if_true]
      split_ifs <;> omega
  have hle : directive.taken value.bytes.length ≤ value.bytes.length := by
    unfold Directive.taken
    split_ifs <;> omega
  have hfilled : (if (directive.explicitPrecision &&
      directive.taken value.bytes.length < unsigned directive.precision) = true then
        List.replicate (unsigned (directive.precision - directive.taken value.bytes.length)) (ch ' ')
      else []) = List.replicate (directive.filled value.bytes.length) (ch ' ') := by
    unfold Directive.filled Directive.taken
    cases directive.explicitPrecision with
    | false => rfl
    | true =>
      simp only [Bool.true_and, decide_eq_true_eq, if_true]
      by_cases hlt : value.bytes.length < unsigned directive.precision
      · rw [if_pos (by omega), Nat.min_eq_left (by omega), unsigned_sub (by omega)]
      · rw [if_neg (by omega), Nat.sub_eq_zero_of_le (by omega)]
        rfl
  have hmax : max (unsigned directive.width) value.bytes.length - value.bytes.length =
      unsigned directive.width - value.bytes.length := by omega
  unfold printString Directive.stringOutput
  simp only [htaken, pad_after_if, emit_after, string_padding_eq hlen hle,
    string_padding_eq hlen (Nat.le_refl _), hmax, hfilled]
  cases directive.flags.leftJustify <;> simp

end

/-- What an item prints. -/
def Item.output : Item → List UInt8
  | .literal c => [c]
  | .number directive value =>
    let isNegative := directive.isSigned && value.msb
    directive.printed.numberOutput isNegative (if isNegative then -value else value).toNat
  | .character directive value => directive.characterOutput value
  | .string directive value => directive.stringOutput value.bytes
  | .stored => []

theorem Item.print_eq (item : Item) (output : List UInt8) :
    item.print (.after output) = .ok (.after (output ++ item.output)) := by
  cases item with
  | literal c => exact congrArg Except.ok (emit_after output [c])
  | number directive value => exact printNumber_eq _ _ _ (BitVec.isLt _) output
  | character directive value => exact congrArg Except.ok (printCharacter_eq directive value output)
  | string directive value => exact congrArg Except.ok (printString_eq directive value output)
  | stored => rw [Item.print, Item.output, List.append_nil]

/-! ## Formats -/

/-- The items of a format up to its end, or up to the end of the format inside of a conversion. -/
def itemsFrom : (fuel : Nat) → List Argument → List UInt8 → Scan (List Item)
  | _, _, [] => .ok []
  | 0, _, _ :: _ => .error .endless
  | fuel + 1, args, c :: s =>
    match scanItem args (c :: s) with
    | .error .ended => .ok []
    | .error stop => .error stop
    | .ok (item, args, s) =>
      match chomp s with
      | .error .ended => .ok [item]
      | .error stop => .error stop
      | .ok s => do return item :: (← itemsFrom fuel args s)

def items (format : CString) (args : List Argument) : Scan (List Item) :=
  itemsFrom format.bytes.length args format.bytes

/-- What all of the items print. -/
def outputOf (items : List Item) : List UInt8 := items.flatMap Item.output

/-- What the loop returns where the format has these items: their number of bytes as an `int`, and −1
where the format is refused. -/
def Prints (output : List UInt8) : Scan (List Item) → Scan (Int × List UInt8) → Prop
  | .ok items, result =>
    result = .ok (s32 (output ++ outputOf items).length, output ++ outputOf items)
  | .error .refused, result => ∃ bytes, result = .ok (-1, bytes)
  | .error stop, result => result = .error stop

theorem Prints.cons {output : List UInt8} {item : Item} {rest : Scan (List Item)}
    {result : Scan (Int × List UInt8)} (h : Prints (output ++ item.output) rest result) :
    Prints output (rest.map (item :: ·)) result := by
  cases rest with
  | ok items =>
    simp only [Prints, Except.map, outputOf, List.flatMap_cons] at h ⊢
    rwa [← List.append_assoc]
  | error stop => cases stop <;> exact h

theorem vcbprintfFrom_prints (fuel : Nat) (args : List Argument) (s output : List UInt8) :
    Prints output (itemsFrom fuel args s) (vcbprintfFrom fuel args s (.after output)) := by
  induction fuel generalizing args s output with
  | zero =>
    cases s with
    | nil => simp [itemsFrom, vcbprintfFrom, Prints, outputOf, after]
    | cons c s => exact rfl
  | succ fuel ih =>
    cases s with
    | nil => simp [itemsFrom, vcbprintfFrom, Prints, outputOf, after]
    | cons c s =>
      rw [itemsFrom, vcbprintfFrom]
      cases scanItem args (c :: s) with
      | error stop =>
        cases stop with
        | ended => simp [Prints, outputOf, after]
        | refused => exact ⟨_, rfl⟩
        | argument | floating | beyond | buffer | endless => exact rfl
      | ok r =>
        obtain ⟨item, args, s⟩ := r
        show Prints output _ (item.print (.after output) >>= _)
        rw [item.print_eq]
        rcases s with _ | ⟨a, _ | ⟨d, s⟩⟩
        · exact rfl
        · simp only [chomp, Prints, outputOf, List.flatMap_singleton]
          rfl
        · exact (ih args (d :: s) (output ++ item.output)).cons

theorem vcbprintf_prints (format : CString) (args : List Argument) :
    Prints [] (items format args) (vcbprintf format args) := by
  have hstart : ({} : Printed) = .after [] := by
    rw [after, s32_of_range (by simp) (by simp)]
    rfl
  rw [vcbprintf, hstart]
  exact vcbprintfFrom_prints _ _ _ _

end LibC
