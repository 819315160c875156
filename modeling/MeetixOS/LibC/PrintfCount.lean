import MeetixOS.LibC.PrintfOutput

/-! # What `vcbprintf` returns

The scan of a format stays in front of its terminating zero, whatever the format is. `written` is an `int`
that is counted modulo 2^32, and so is what is returned. -/

open MeetixOS.Kernel (s32 s32_of_range)

namespace LibC

/-! ## The scan -/

/-- The accesses that the model watches. -/
def Stop.outOfBounds : Stop → Bool
  | .beyond | .buffer | .endless => true
  | .ended | .refused | .argument | .floating => false

/-- The scan stays in bounds, and what it ends with has the property. -/
def Within {β : Type} (r : Scan β) (P : β → Prop) : Prop :=
  match r with
  | .ok b => P b
  | .error stop => stop.outOfBounds = false

section

variable {β γ : Type} {r : Scan β} {f : β → Scan γ} {P P' : β → Prop} {Q : γ → Prop}

theorem Within.bind (h : Within r P) (hf : ∀ b, P b → Within (f b) Q) : Within (r >>= f) Q := by
  cases r with
  | ok b => exact hf b h
  | error stop => exact h

theorem Within.mono (h : Within r P) (himp : ∀ b, P b → P' b) : Within r P' := by
  cases r with
  | ok b => exact himp b h
  | error stop => exact h

end

variable {args : List Argument} {s : List UInt8} {flags : Flags}

theorem within_chomp (h : s ≠ []) : Within (chomp s) fun s' => s'.length < s.length := by
  rcases s with _ | ⟨c, _ | ⟨d, s⟩⟩
  · exact absurd rfl h
  · exact rfl
  · exact Nat.lt_succ_self _

theorem within_chomp_of {c : UInt8} (hc : c ≠ 0) (h : current s = c) :
    Within (chomp s) fun s' => s'.length ≤ s.length := by
  have hne : s ≠ [] := by
    rintro rfl
    exact hc h.symm
  exact (within_chomp hne).mono fun s' hs' => Nat.le_of_lt hs'

theorem within_scanFlags : Within (scanFlags flags s) fun r => r.2.length ≤ s.length := by
  induction s generalizing flags with
  | nil => exact Nat.le_refl _
  | cons c s ih =>
    rw [scanFlags]
    split
    next => exact Nat.le_refl _
    next flags' _ =>
      refine (within_chomp (List.cons_ne_nil c s)).bind fun _ _ => ?_
      have hrest : Within (scanFlags flags' s) fun r => r.2.length ≤ s.length := ih
      exact hrest.mono fun r hr => Nat.le_succ_of_le hr

theorem within_takeWord : Within (takeWord args) fun _ => True := by
  unfold takeWord
  split
  · trivial
  · exact rfl

theorem strtolFrom_length (base i : Int) : (strtolFrom base s i).2.length ≤ s.length := by
  induction s generalizing i with
  | nil => exact Nat.le_refl _
  | cons c s ih =>
    rw [strtolFrom]
    split_ifs
    · exact Nat.le_refl _
    · exact Nat.le_refl _
    · exact Nat.le_succ_of_le (ih _)
    · exact Nat.le_succ_of_le (ih _)

theorem strtol_length (base : Int) : (strtol s base).2.length ≤ s.length := by
  refine (strtolFrom_length _ _).trans ?_
  have hspace := List.length_dropWhile_le isspace s
  split_ifs <;> simp <;> omega

theorem within_scanNumber (otherwise : Int) :
    Within (scanNumber otherwise args s) fun r => r.2.2.length ≤ s.length := by
  unfold scanNumber
  split_ifs with hstar hdigit
  · refine within_takeWord.bind fun _ _ => ?_
    exact (within_chomp_of (by decide) hstar).bind fun s' hs' => hs'
  · exact strtol_length 10
  · exact Nat.le_refl _

theorem within_scanPrecision : Within (scanPrecision args s) fun r => r.2.2.length ≤ s.length := by
  unfold scanPrecision
  split_ifs with hdot
  · refine (within_chomp_of (by decide) hdot).bind fun s' hs' => ?_
    exact (within_scanNumber 6).bind fun r hr => Nat.le_trans hr hs'
  · exact Nat.le_refl _

theorem within_scanLength : Within (scanLength s) fun r => r.2.length ≤ s.length := by
  unfold scanLength
  split_ifs with hh hl hj hz ht hL
  · refine (within_chomp_of (by decide) hh).bind fun s' hs' => ?_
    split_ifs with hh'
    · exact (within_chomp_of (by decide) hh').bind fun s'' hs'' => Nat.le_trans hs'' hs'
    · exact hs'
  · refine (within_chomp_of (by decide) hl).bind fun s' hs' => ?_
    split_ifs with hl'
    · exact (within_chomp_of (by decide) hl').bind fun s'' hs'' => Nat.le_trans hs'' hs'
    · exact hs'
  · exact (within_chomp_of (by decide) hj).bind fun s' hs' => hs'
  · exact (within_chomp_of (by decide) hz).bind fun s' hs' => hs'
  · exact (within_chomp_of (by decide) ht).bind fun s' hs' => hs'
  · exact (within_chomp_of (by decide) hL).bind fun s' hs' => hs'
  · exact Nat.le_refl _

theorem within_scanDirective : Within (scanDirective args s) fun r =>
    r.2.2.length ≤ s.length ∧ r.1.specifier = current r.2.2 := by
  refine (within_scanFlags).bind fun r₁ h₁ => ?_
  refine (within_scanNumber 0).bind fun r₂ h₂ => ?_
  refine (within_scanPrecision).bind fun r₃ h₃ => ?_
  refine (within_scanLength).bind fun r₄ h₄ => ?_
  exact ⟨h₄.trans (h₃.trans (h₂.trans h₁)), rfl⟩

theorem within_numberValue (isSigned : Bool) (length : Length) :
    Within (numberValue isSigned length args) fun _ => True := by
  have hwide : Within (takeWide args) fun _ => True := by
    unfold takeWide
    split
    · trivial
    · exact rfl
  cases length with
  | default | l | hh | h | z | t => exact within_takeWord.bind fun _ _ => trivial
  | ll | j => exact hwide
  | L => exact rfl

theorem within_fetch (directive : Directive) :
    Within (fetch directive args) fun _ => directive.specifier ≠ 0 := by
  by_cases hzero : directive.specifier = 0
  · have hrefused : fetch directive args = .error .refused := by
      have hnumber : directive.isNumber = false := by
        unfold Directive.isNumber Directive.isSigned
        rw [hzero]
        decide
      have hfloating : directive.isFloating = false := by
        unfold Directive.isFloating
        rw [hzero]
        decide
      rw [fetch, hnumber, hfloating, hzero]
      rfl
    rw [hrefused]
    exact rfl
  · unfold fetch
    split_ifs
    · exact (within_numberValue _ _).bind fun _ _ => hzero
    · exact rfl
    · exact within_takeWord.bind fun _ _ => hzero
    · exact rfl
    · refine Within.bind (P := fun _ => True) ?_ fun _ _ => hzero
      unfold takeString
      split
      · trivial
      · exact rfl
    · exact rfl
    · refine Within.bind (P := fun _ => True) ?_ fun _ _ => hzero
      unfold takeLocation
      split
      · trivial
      · exact rfl
    · exact rfl

theorem within_scanItem (hne : s ≠ []) : Within (scanItem args s) fun r =>
    r.2.2 ≠ [] ∧ r.2.2.length ≤ s.length := by
  unfold scanItem
  split_ifs with hpercent
  · refine (within_chomp_of (by decide) hpercent).bind fun s' hs' => ?_
    split_ifs with hpercent'
    · refine ⟨?_, hs'⟩
      rintro rfl
      exact absurd hpercent' (by decide)
    · refine within_scanDirective.bind fun r hr => ?_
      refine (within_fetch r.1).bind fun _ hspecifier => ⟨?_, hr.1.trans hs'⟩
      intro hnil
      rw [hr.2, hnil] at hspecifier
      exact hspecifier rfl
  · exact ⟨hne, Nat.le_refl _⟩

theorem within_itemsFrom {fuel : Nat} (hfuel : s.length ≤ fuel) :
    Within (itemsFrom fuel args s) fun _ => True := by
  induction fuel generalizing args s with
  | zero =>
    obtain rfl := List.length_eq_zero_iff.1 (Nat.le_zero.1 hfuel)
    trivial
  | succ fuel ih =>
    cases s with
    | nil => trivial
    | cons c s =>
      rw [itemsFrom]
      have hitem : Within (scanItem args (c :: s)) fun r =>
          r.2.2 ≠ [] ∧ r.2.2.length ≤ (c :: s).length := within_scanItem (List.cons_ne_nil c s)
      cases hscan : scanItem args (c :: s) with
      | error stop =>
        rw [hscan] at hitem
        cases stop with
        | ended => trivial
        | refused | argument | floating => exact rfl
        | beyond | buffer | endless => cases hitem
      | ok r =>
        rw [hscan] at hitem
        obtain ⟨item, args, s'⟩ := r
        obtain ⟨hne, hle⟩ := hitem
        rcases s' with _ | ⟨a, _ | ⟨d, rest⟩⟩
        · exact absurd rfl hne
        · trivial
        · refine (ih ?_).bind fun _ _ => trivial
          simp only [List.length_cons] at hle hfuel ⊢
          omega

/-! ## The number of bytes -/

/-- How many bytes an item asks for. -/
def Item.size : Item → Nat
  | .literal _ => 1
  | .number directive value =>
    let isNegative := directive.isSigned && value.msb
    max (unsigned directive.width)
      (directive.printed.numberLength isNegative (if isNegative then -value else value).toNat)
  | .character directive _ => 1 + (s32 (directive.width - 1)).toNat
  | .string directive value =>
    let len := value.bytes.length
    if directive.flags.leftJustify then max (unsigned directive.width) len + directive.filled len
    else unsigned directive.width - len + directive.taken len + directive.filled len
  | .stored => 0

theorem Directive.printed_width (directive : Directive) : directive.printed.width = directive.width := by
  unfold Directive.printed
  split_ifs <;> rfl

theorem Directive.numberOutput_length (directive : Directive) (isNegative : Bool) (value : Nat) :
    (directive.numberOutput isNegative value).length =
      max (unsigned directive.width) (directive.numberLength isNegative value) := by
  unfold Directive.numberOutput
  have hlength : directive.numberLength isNegative value = (directive.sign isNegative).length +
    directive.marker.length + (directive.numeral value).length := rfl
  split_ifs <;> simp <;> omega

theorem Item.output_length (item : Item) : item.output.length = item.size := by
  cases item with
  | literal c | stored => rfl
  | number directive value =>
    rw [Item.output, Item.size, Directive.numberOutput_length, Directive.printed_width]
  | character directive value =>
    rw [Item.output, Item.size, Directive.characterOutput]
    split_ifs <;> simp <;> omega
  | string directive value =>
    have htaken : directive.taken value.bytes.length ≤ value.bytes.length := by
      unfold Directive.taken
      split_ifs <;> omega
    rw [Item.output, Item.size, Directive.stringOutput]
    split_ifs <;> simp <;> omega

/-- How many bytes a format asks for. -/
def sizeOf (items : List Item) : Nat := (items.map Item.size).sum

theorem outputOf_length (items : List Item) : (outputOf items).length = sizeOf items := by
  rw [outputOf, sizeOf, List.length_flatMap]
  exact congrArg List.sum (List.map_congr_left fun item _ => item.output_length)

/-- The scan stays in bounds and every number in its buffer, and what is returned, unless it is
negative, is the number of the bytes that were printed. -/
structure Counted (format : CString) (args : List Argument) : Prop where
  bounded : ∀ stop, vcbprintf format args = .error stop → stop.outOfBounds = false
  counts : ∀ n output, vcbprintf format args = .ok (n, output) → 0 ≤ n → n = output.length

theorem not_counted {format : CString} {args : List Argument} {list : List Item}
    (hlist : items format args = .ok list) (hlarge : 2 ^ 31 ≤ sizeOf list)
    (hwrapped : sizeOf list % 2 ^ 32 < 2 ^ 31) : ¬ Counted format args := by
  intro hcounted
  have hprints := vcbprintf_prints format args
  rw [hlist] at hprints
  have hcount := hcounted.counts _ _ hprints
  rw [List.nil_append, outputOf_length, s32, Int.bmod_def] at hcount
  omega

/-- The returned number is right where the bytes are fewer than 2^31, or are so many that the number is
negative. -/
theorem counted_iff (format : CString) (args : List Argument) :
    Counted format args ↔
      ∀ list, items format args = .ok list → sizeOf list < 2 ^ 31 ∨ 2 ^ 31 ≤ sizeOf list % 2 ^ 32 := by
  constructor
  · intro hcounted list hlist
    by_contra hsize
    exact not_counted hlist (by omega) (by omega) hcounted
  · intro hsize
    have hprints := vcbprintf_prints format args
    have hwithin : Within (items format args) fun _ => True := within_itemsFrom (Nat.le_refl _)
    cases hitems : items format args with
    | ok list =>
      rw [hitems] at hprints
      refine ⟨fun stop hstop => ?_, fun n output hrun hn => ?_⟩
      · cases hprints.symm.trans hstop
      · cases hprints.symm.trans hrun
        have hlist := hsize list hitems
        rw [List.nil_append, outputOf_length, s32, Int.bmod_def] at hn ⊢
        omega
    | error stop =>
      rw [hitems] at hprints hwithin
      cases stop with
      | refused =>
        obtain ⟨bytes, hreturn⟩ := hprints
        refine ⟨fun stop hstop => ?_, fun n output hrun hn => ?_⟩
        · cases hreturn.symm.trans hstop
        · cases hreturn.symm.trans hrun
          omega
      | ended | argument | floating | beyond | buffer | endless =>
        refine ⟨fun stop hstop => ?_, fun n output hrun hn => ?_⟩
        · cases hprints.symm.trans hstop
          exact hwithin
        · cases hprints.symm.trans hrun

/-- `abcde%*d`. -/
def starFormat : CString where
  bytes := [97, 98, 99, 100, 101, ch '%', ch '*', ch 'd']
  ne_zero := forall_mem_of_all (by decide)
  length_lt := by simp

/-- With the width −5: the width is taken for 2^32 − 5, and the number is 0. -/
theorem negative_width_miscounted : ¬ Counted starFormat [.word (-5), .word 0] := by
  have hlist : items starFormat [.word (-5), .word 0] =
      .ok [.literal 97, .literal 98, .literal 99, .literal 100, .literal 101,
        .number ⟨{}, -5, 6, false, .default, ch 'd'⟩ 0] := by decide
  have hsize : sizeOf [.literal 97, .literal 98, .literal 99, .literal 100, .literal 101,
      .number ⟨{}, -5, 6, false, .default, ch 'd'⟩ 0] = 2 ^ 32 := by decide
  exact not_counted hlist (by omega) (by omega)

end LibC
