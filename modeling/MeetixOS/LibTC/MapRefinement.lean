import MeetixOS.LibTC.MapInvariant

/-! # The map as a finite partial map

Runs of calls to several `Map`s, which are also moved into each other, against the same calls on finite
partial maps. Every call answers as the partial map does, as long as no key is looked up in a map that
was moved away (`clean_map_runs_refine`): moving leaves a map without buckets, and the hash of a key is
reduced by their number. -/

open Function (update)
open Slots PartialMap

namespace LibTC

/-- The calls that a run is made of, with the maps that they are made on. -/
inductive MapCall (ι K T : Type)
  | tryInsert (i : ι) (key : K) (value : T) (onExistingKey : OnExistingKey)
  | eraseKey (i : ι) (key : K)
  | eraseValue (i : ι) (value : T)
  | clear (i : ι)
  | move (source target : ι)
  | valueAt (i : ι) (key : K)
  | hasKey (i : ι) (key : K)
  | hasValue (i : ι) (value : T)
  | count (i : ι)

/-- What a call returns when it does not return an error. -/
inductive MapAnswer (T : Type)
  | done
  | value (x : Option T)
  | number (n : Nat)
  | flag (b : Bool)

variable {ι K T : Type} [DecidableEq ι] [DecidableEq K] [BEq T]

/-! ## The partial maps -/

/-- What a call does to the partial maps. -/
noncomputable def MapCall.onMaps (c : MapCall ι K T) (s : ι → K → Option T) :
    Except Error (MapAnswer T) × (ι → K → Option T) :=
  open Classical in
  match c with
  | .tryInsert i key value mode =>
    if (s i key).isSome ∧ mode = .keepOldValue then
      (.ok (.value none), s)
    else
      (.ok (.value (s i key)), update s i (update (s i) key (some value)))
  | .eraseKey i key =>
    if (s i key).isSome then
      (.ok .done, update s i (update (s i) key none))
    else
      (.error .enoent, s)
  | .eraseValue i value =>
    let erased := dom (filter (fun pair => pair.2 == value) (s i))
    let left := update s i (filter (fun pair => !(pair.2 == value)) (s i))
    if erased.ncard = 0 then (.error .enoent, left) else (.ok (.number erased.ncard), left)
  | .clear i => (.ok .done, update s i fun _ => none)
  | .move source target =>
    (.ok .done, update (update s source fun _ => none) target (s source))
  | .valueAt i key => (.ok (.value (s i key)), s)
  | .hasKey i key => (.ok (.flag (s i key).isSome), s)
  | .hasValue i value => (.ok (.flag (decide (∃ key x, s i key = some x ∧ (value == x) = true))), s)
  | .count i => (.ok (.number (dom (s i)).ncard), s)

/-- The calls that may ask for memory. -/
def MapCall.Allocates : MapCall ι K T → Prop
  | .tryInsert .. => True
  | _ => False

/-- The partial map's answer, or that of an allocator that has no memory. -/
def MapAnswers (granted : Bool) (c : MapCall ι K T) (s : ι → K → Option T)
    (answer : Except Error (MapAnswer T)) (s' : ι → K → Option T) : Prop :=
  c.onMaps s = (answer, s') ∨ c.Allocates ∧ granted = false ∧ answer = .error .enomem ∧ s' = s

/-! ## The maps -/

namespace Map

/-- Where a call changes one map. -/
def updated {β : Type} (maps : ι → Map K T) (i : ι) (f : β → MapAnswer T)
    (o : Except Error β × Map K T) : Except Error (MapAnswer T) × (ι → Map K T) :=
  (o.1.map f, update maps i o.2)

/-- A call, with what it returns. Of the two maps of a move assignment, the one that is swapped out is
destroyed. -/
def call (traits : Traits K) (granted : Bool) (c : MapCall ι K T) (maps : ι → Map K T) :
    Checked (Except Error (MapAnswer T) × (ι → Map K T)) :=
  match c with
  | .tryInsert i key value mode =>
    ((maps i).tryInsert traits granted key value mode).map (updated maps i .value)
  | .eraseKey i key => ((maps i).eraseKey traits key).map (updated maps i fun _ => .done)
  | .eraseValue i value => ((maps i).eraseValue value).map (updated maps i .number)
  | .clear i => ((maps i).clear granted).map fun m => (.ok .done, update maps i m)
  | .move source target => do
      let (map, left) := (maps source).moved
      let maps := update maps source left
      let _ ← (maps target).bucketsStorage.clear false false
      return (.ok .done, update maps target map)
  | .valueAt i key => ((maps i).valueAt traits key).map fun x => (.ok (.value x), maps)
  | .hasKey i key => ((maps i).hasKey traits key).map fun b => (.ok (.flag b), maps)
  | .hasValue i value => ((maps i).hasValue value).map fun b => (.ok (.flag b), maps)
  | .count i => return (.ok (.number (maps i).valuesCount), maps)

/-- Each map lists its partial map. -/
def Represents (traits : Traits K) (m : Map K T) (s : K → Option T) : Prop :=
  ∃ buckets, m.Holds traits buckets s

/-- The calls that look no key up in a map without buckets and ask for no bucket whose capacity wraps
around. -/
def Clean (traits : Traits K) (maps : ι → Map K T) : MapCall ι K T → Prop
  | .tryInsert i key _ _ =>
    (maps i).bucketsStorage.valuesCount ≠ 0 ∧ (maps i).BucketGrowable traits key
  | .eraseKey i _ => (maps i).bucketsStorage.valuesCount ≠ 0
  | .valueAt i _ => (maps i).bucketsStorage.valuesCount ≠ 0
  | .hasKey i _ => (maps i).bucketsStorage.valuesCount ≠ 0
  | _ => True

variable {traits : Traits K} {maps maps' : ι → Map K T} {s : ι → K → Option T} {m : Map K T}
  {i : ι} {granted : Bool} {c : MapCall ι K T}

omit [DecidableEq ι] [BEq T] [DecidableEq K] in
theorem Holds.ne_nil {buckets : List (List (K × T))} {s : K → Option T} (h : m.Holds traits buckets s)
    (hne : m.bucketsStorage.valuesCount ≠ 0) : buckets ≠ [] := by
  rintro rfl
  exact hne h.shelves.count

omit [BEq T] [DecidableEq K] in
theorem represents_update (h : ∀ j, (maps j).Represents traits (s j)) (i : ι) {s' : K → Option T}
    (hm : m.Represents traits s') (j : ι) :
    (update maps i m j).Represents traits (update s i s' j) := by
  by_cases hj : j = i
  · subst hj
    rwa [Function.update_self, Function.update_self]
  · rw [Function.update_of_ne hj, Function.update_of_ne hj]
    exact h j

omit [DecidableEq K] [BEq T] in
theorem map_updated_self {β : Type} (maps : ι → Map K T) (i : ι) (f : β → MapAnswer T)
    (r : Except Error β) :
    Except.map (updated maps i f) (.ok (r, maps i) : Checked _) = .ok (r.map f, maps) := by
  rw [Except.map, updated, Function.update_eq_self]

/-- What a call leads to: the partial maps' answer, or the refusal of the allocator. -/
def Refines (traits : Traits K) (granted : Bool) (c : MapCall ι K T) (maps : ι → Map K T)
    (s : ι → K → Option T) : Prop :=
  ∃ answer maps' s', call traits granted c maps = .ok (answer, maps') ∧
    MapAnswers granted c s answer s' ∧ ∀ i, (maps' i).Represents traits (s' i)

theorem refines_of_ok {answer : Except Error (MapAnswer T)} {s' : ι → K → Option T}
    (hcall : call traits granted c maps = .ok (answer, maps')) (hspec : c.onMaps s = (answer, s'))
    (h : ∀ i, (maps' i).Represents traits (s' i)) : Refines traits granted c maps s :=
  ⟨answer, maps', s', hcall, .inl hspec, h⟩

section

variable (h : ∀ i, (maps i).Represents traits (s i))
include h

theorem refines_tryInsert (i : ι) (key : K) (value : T) (mode : OnExistingKey)
    (hclean : Clean traits maps (.tryInsert i key value mode)) :
    Refines traits granted (.tryInsert i key value mode) maps s := by
  obtain ⟨hne, hgrow⟩ := hclean
  obtain ⟨buckets, hi⟩ := h i
  replace hne := hi.ne_nil hne
  have hspec : ¬ ((s i key).isSome ∧ mode = .keepOldValue) →
      (MapCall.tryInsert i key value mode).onMaps s =
        (.ok (.value (s i key)), update s i (update (s i) key (some value))) :=
    fun hnot => if_neg hnot
  cases hold : s i key with
  | none =>
    rcases hi.tryInsert_new hne granted mode value hold hgrow with
      ⟨m', buckets', hinsert, -, hm'⟩ | ⟨hrefused, hinsert⟩
    · refine refines_of_ok ?_ (hspec (by rw [hold]; simp)) (represents_update h i ⟨buckets', hm'⟩)
      rw [call, hinsert, hold]
      rfl
    · refine ⟨.error .enomem, maps, s, ?_, .inr ⟨True.intro, hrefused, rfl, rfl⟩, h⟩
      rw [call, hinsert]
      exact map_updated_self maps i _ _
  | some old =>
    cases mode with
    | update =>
      obtain ⟨m', buckets', hinsert, -, hm'⟩ := hi.tryInsert_update hne granted value hold
      refine refines_of_ok ?_ (hspec (by simp))
        (represents_update h i ⟨buckets', hm'⟩)
      rw [call, hinsert, hold]
      rfl
    | keepOldValue =>
      refine ⟨.ok (.value none), maps, s, ?_, .inl ?_, h⟩
      · rw [call, hi.tryInsert_keep hne granted value hold]
        exact map_updated_self maps i _ _
      · exact if_pos ⟨by rw [hold]; rfl, rfl⟩

theorem refines_eraseKey (i : ι) (key : K) (hclean : Clean traits maps (.eraseKey i key)) :
    Refines traits granted (.eraseKey i key) maps s := by
  obtain ⟨buckets, hi⟩ := h i
  have herase := hi.eraseKey (hi.ne_nil hclean) key
  by_cases hsome : (s i key).isSome
  · rw [if_pos hsome] at herase
    obtain ⟨m', buckets', herase, -, hm'⟩ := herase
    refine refines_of_ok ?_ (if_pos hsome) (represents_update h i ⟨buckets', hm'⟩)
    rw [call, herase]
    rfl
  · rw [if_neg hsome] at herase
    refine ⟨_, maps, s, ?_, .inl (if_neg hsome), h⟩
    rw [call, herase]
    exact map_updated_self maps i _ _

theorem refines_eraseValue (i : ι) (value : T) :
    Refines traits granted (.eraseValue i value) maps s := by
  obtain ⟨buckets, hi⟩ := h i
  obtain ⟨m', buckets', herase, -, hm'⟩ := hi.eraseValue value
  have hcount : (dom (filter (fun pair => pair.2 == value) (s i))).ncard =
      buckets.flatten.countP fun pair => pair.2 == value := by
    rw [(hi.lists.filter _).ncard_dom, List.countP_eq_length_filter]
  refine ⟨_, _, _, by rw [call, herase]; rfl, .inl ?_, represents_update h i ⟨buckets', hm'⟩⟩
  rw [MapCall.onMaps]
  rw [hcount]
  split
  next => rfl
  next => rfl

theorem refines_move (source target : ι) : Refines traits granted (.move source target) maps s := by
  have hleft := represents_update h source ⟨[], holds_left traits⟩
  obtain ⟨-, ⟨vectors, htarget, -⟩, -⟩ := hleft target
  obtain ⟨destroyed, hclear, -⟩ := htarget.clear false false
  refine refines_of_ok ?_ rfl (represents_update hleft target (h source))
  rw [call]
  simp [moved, Vector.moved, hclear, pure_eq_ok]

theorem refines_call (granted : Bool) (c : MapCall ι K T) (hclean : Clean traits maps c) :
    Refines traits granted c maps s := by
  cases c with
  | tryInsert i key value mode => exact refines_tryInsert h i key value mode hclean
  | eraseKey i key => exact refines_eraseKey h i key hclean
  | eraseValue i value => exact refines_eraseValue h i value
  | clear i =>
    obtain ⟨buckets, hi⟩ := h i
    obtain ⟨m', hclear, hm'⟩ := hi.clear granted
    refine refines_of_ok ?_ rfl (represents_update h i ⟨_, hm'⟩)
    rw [call, hclear]
    rfl
  | move source target => exact refines_move h source target
  | valueAt i key =>
    obtain ⟨buckets, hi⟩ := h i
    refine refines_of_ok ?_ rfl h
    rw [call, hi.valueAt (hi.ne_nil hclean)]
    rfl
  | hasKey i key =>
    obtain ⟨buckets, hi⟩ := h i
    refine refines_of_ok ?_ rfl h
    rw [call, hi.hasKey (hi.ne_nil hclean)]
    rfl
  | hasValue i value =>
    obtain ⟨buckets, hi⟩ := h i
    obtain ⟨found, hfind, hfound⟩ := hi.hasValue value
    refine ⟨.ok (.flag found), maps, s, ?_, .inl ?_, h⟩
    · rw [call, hfind]
      rfl
    · have hflag := Bool.eq_iff_iff.2 ((@decide_eq_true_iff _ (Classical.propDecidable _)).trans hfound.symm)
      rw [MapCall.onMaps, hflag]
  | count i =>
    obtain ⟨buckets, hi⟩ := h i
    refine refines_of_ok ?_ rfl h
    rw [call, hi.count, hi.lists.ncard_dom]
    rfl

end

/-! ## Runs -/

/-- A run of clean calls, with the allocator's answers and those of the calls. -/
inductive CleanRun (traits : Traits K) :
    (ι → Map K T) → List (MapCall ι K T × Bool × Except Error (MapAnswer T)) → (ι → Map K T) → Prop
  | nil (maps : ι → Map K T) : CleanRun traits maps [] maps
  | cons {maps maps' maps'' : ι → Map K T} {c : MapCall ι K T} {granted : Bool}
      {answer : Except Error (MapAnswer T)}
      {rest : List (MapCall ι K T × Bool × Except Error (MapAnswer T))} (hclean : Clean traits maps c)
      (hcall : call traits granted c maps = .ok (answer, maps'))
      (hrest : CleanRun traits maps' rest maps'') :
      CleanRun traits maps ((c, granted, answer) :: rest) maps''

/-- The same calls with the same answers on partial maps. -/
inductive MapsRun : (ι → K → Option T) →
    List (MapCall ι K T × Bool × Except Error (MapAnswer T)) → (ι → K → Option T) → Prop
  | nil (s : ι → K → Option T) : MapsRun s [] s
  | cons {s s' s'' : ι → K → Option T} {c : MapCall ι K T} {granted : Bool}
      {answer : Except Error (MapAnswer T)}
      {rest : List (MapCall ι K T × Bool × Except Error (MapAnswer T))}
      (hcall : MapAnswers granted c s answer s') (hrest : MapsRun s' rest s'') :
      MapsRun s ((c, granted, answer) :: rest) s''

theorem represents_run {trace : List (MapCall ι K T × Bool × Except Error (MapAnswer T))}
    (hrun : CleanRun traits maps trace maps') (h : ∀ i, (maps i).Represents traits (s i)) :
    ∃ s', MapsRun s trace s' ∧ ∀ i, (maps' i).Represents traits (s' i) := by
  induction hrun generalizing s with
  | nil maps => exact ⟨s, .nil s, h⟩
  | @cons maps maps' maps'' c granted answer rest hclean hcall hrest ih =>
    obtain ⟨answer', after, s', hcall', hanswers, h'⟩ := refines_call h granted c hclean
    rw [hcall'] at hcall
    cases hcall
    obtain ⟨s'', hmaps, h''⟩ := ih h'
    exact ⟨s'', .cons hanswers hmaps, h''⟩

/-- Maps of any numbers of buckets, in every state of a run of clean calls: each lists the partial map
of the same run, its counter is the number of keys, and the next clean call ends and answers as that
does. So the assertion of `erase_key` holds. -/
theorem clean_map_runs_refine (traits : Traits K) (bucketCount : ι → Nat)
    (hpos : ∀ i, 1 ≤ bucketCount i) (hlt : ∀ i, bucketCount i < 2 ^ 32)
    (hstart : ∀ i, ofBucketCount true (bucketCount i) = .ok (maps i))
    {trace : List (MapCall ι K T × Bool × Except Error (MapAnswer T))}
    (hrun : CleanRun traits maps trace maps') :
    ∃ s', MapsRun (fun _ _ => none) trace s' ∧ (∀ i, (maps' i).Represents traits (s' i)) ∧
      (∀ i, (maps' i).valuesCount = (dom (s' i)).ncard) ∧
      ∀ granted c, Clean traits maps' c →
        ∃ answer maps'' s'', call traits granted c maps' = .ok (answer, maps'') ∧
          MapAnswers granted c s' answer s'' ∧ ∀ i, (maps'' i).Represents traits (s'' i) := by
  have hempty : ∀ i, (maps i).Represents traits fun _ => none := by
    intro i
    obtain ⟨m, hbuilt, hm⟩ := ofBucketCount_holds traits (hpos i) (hlt i)
    rw [hstart i] at hbuilt
    cases hbuilt
    exact ⟨_, hm⟩
  obtain ⟨s', hmaps, h'⟩ := represents_run hrun hempty
  refine ⟨s', hmaps, h', ?_, fun granted c hclean => refines_call h' granted c hclean⟩
  intro i
  obtain ⟨buckets, hi⟩ := h' i
  rw [hi.count, hi.lists.ncard_dom]

/-- Two keys in one bucket, one of which is overwritten and one erased, and a move. -/
def sampleTrace : List (MapCall Bool Nat Nat × Bool × Except Error (MapAnswer Nat)) :=
  [(.tryInsert false 5 50 .update, true, .ok (.value none)),
    (.tryInsert false 7 70 .update, true, .ok (.value none)),
    (.tryInsert false 5 51 .update, true, .ok (.value (some 50))),
    (.eraseKey false 7, true, .ok .done), (.move false true, true, .ok .done),
    (.valueAt true 5, true, .ok (.value (some 51)))]

theorem clean_map_run_sample : ∃ (maps : Bool → Map Nat Nat) (s : Bool → Nat → Option Nat),
    MapsRun (fun _ _ => none) sampleTrace s ∧ ∀ i, (maps i).valuesCount = (dom (s i)).ncard := by
  have hsmall : ∀ (m : Map Nat Nat) key, (∀ index vector,
      m.bucketByHash ⟨id, fun a b => b < a, true⟩ key = .ok (index, vector) → vector.valuesCount ≤ 2) →
        m.BucketGrowable ⟨id, fun a b => b < a, true⟩ key := by
    intro m key h index vector hbucket _ _
    have := h index vector hbucket
    omega
  have hrun : ∃ maps, CleanRun ⟨id, fun a b => b < a, true⟩
      (fun _ => ⟨⟨some [some {}, some {}], 2, 2⟩, 0⟩) sampleTrace maps := by
    unfold sampleTrace
    apply Exists.intro
    iterate 3
      apply CleanRun.cons
        (by exact ⟨two_ne_zero, hsmall _ _ (by rintro _ _ ⟨⟩; with_unfolding_all decide)⟩)
        (by with_unfolding_all rfl)
    apply CleanRun.cons (by exact two_ne_zero) (by with_unfolding_all rfl)
    apply CleanRun.cons (by exact trivial) rfl
    exact .cons two_ne_zero (by with_unfolding_all rfl) (.nil _)
  obtain ⟨maps, hrun⟩ := hrun
  obtain ⟨s, hmaps, -, hcount, -⟩ := clean_map_runs_refine ⟨id, fun a b => b < a, true⟩ (fun _ => 2)
    (fun _ => by decide) (fun _ => by decide) (fun _ => rfl) hrun
  exact ⟨maps, s, hmaps, hcount⟩

/-- A map that was moved into another one divides by zero when a key is looked up. -/
theorem moved_map_unusable :
    ¬ ∀ (c c' : MapCall Bool Nat Nat) (maps maps' : Bool → Map Nat Nat)
        (answer : Except Error (MapAnswer Nat)), (∀ i, ofBucketCount true 1 = .ok (maps i)) →
      call ⟨id, fun a b => b < a, true⟩ true c maps = .ok (answer, maps') →
      ∃ answer' maps'', call ⟨id, fun a b => b < a, true⟩ true c' maps' = .ok (answer', maps'') := by
  intro h
  obtain ⟨answer, maps, hcall⟩ := h (.move false true) (.hasKey false 5)
    (fun _ => ⟨⟨some [some {}], 1, 1⟩, 0⟩) _ _ (fun _ => rfl) rfl
  cases hcall

end Map

end LibTC
