import FluxOS.Words
import Mathlib.Data.Nat.Find
import Mathlib.Logic.Function.Iterate

/-! A loop that goes from place to place and writes records of one size behind each other, until there
are no more places or no room for more than one record. The bytes it has used are counted in 32 bits. -/
namespace FluxOS.RecordListing
open Words

variable {S N : Type*} (size : Nat) (emits : S → Option N) (next : S → S) (more : S → Bool) (count : Word)

/-- The loop at a place, whose test comes last: the bytes used and the records, when it ends. -/
def list : Nat → S → Word → List N → Option (Word × List N)
  | 0, _, _, _ => none
  | fuel + 1, place, used, listed =>
    let (used, listed) := match emits place with
      | some record => (used + BitVec.ofNat 32 size, listed ++ [record])
      | none => (used, listed)
    if more (next place) = true ∧ used + BitVec.ofNat 32 size < count then list fuel (next place) used listed
    else some (used, listed)

/-- The places the loop comes to. -/
def visits : Nat → S → Word → List S
  | 0, _, _ => []
  | fuel + 1, place, used =>
    let used := if (emits place).isSome then used + BitVec.ofNat 32 size else used
    place ::
      if more (next place) = true ∧ used + BitVec.ofNat 32 size < count then visits fuel (next place) used else []

/-- The records of the first places. -/
def records (place : S) (places : Nat) : List N := (List.range places).filterMap fun i => emits (next^[i] place)

/-- The bytes of the records of the first places, as they are counted. -/
def usedAfter (place : S) (places : Nat) : Word := BitVec.ofNat 32 (size * (records emits next place places).length)

/-- The test behind so many places ends the loop. -/
def Stops (place : S) (places : Nat) : Prop :=
  more (next^[places] place) = false ∨ count ≤ usedAfter size emits next place places + BitVec.ofNat 32 size

instance (place : S) (places : Nat) : Decidable (Stops size emits next more count place places) :=
  inferInstanceAs (Decidable (_ ∨ _))

variable {size emits next more count}

theorem records_succ (place : S) (places : Nat) : records emits next place (places + 1) =
    records emits next place places ++ (emits (next^[places] place)).toList := by
  rw [records, List.range_succ, List.filterMap_append, records]
  have last (record : Option N) (written : emits (next^[places] place) = record) :
      [places].filterMap (fun i => emits (next^[i] place)) = record.toList := by
    cases record with
    | none => exact List.filterMap_cons_none written
    | some record => exact List.filterMap_cons_some written
  rw [last _ rfl]

variable (emits next) in
theorem length_records_succ (place : S) (places : Nat) :
    (records emits next place (places + 1)).length ≤ (records emits next place places).length + 1 := by
  rw [records_succ, List.length_append]
  cases emits (next^[places] place) with
  | none => exact Nat.le_add_right _ _
  | some record => exact Nat.le_refl _

variable (emits next) in
theorem length_records_mono (place : S) {places further : Nat} (le : places ≤ further) :
    (records emits next place places).length ≤ (records emits next place further).length := by
  induction le with
  | refl => exact Nat.le_refl _
  | @step further le ih =>
    refine Nat.le_trans ih ?_
    rw [records_succ, List.length_append]
    exact Nat.le_add_right _ _

theorem length_records_one {place : S} {record : N} (written : emits place = some record) :
    (records emits next place 1).length = 1 := by
  rw [records_succ, Function.iterate_zero_apply, written]
  rfl

theorem stops_iff_not {place : S} {places : Nat} : Stops size emits next more count place places ↔
    ¬(more (next^[places] place) = true ∧
      usedAfter size emits next place places + BitVec.ofNat 32 size < count) := by
  rw [Stops, not_and_or, Bool.not_eq_true, BitVec.not_lt]

/-- One round: behind the next place the loop ends or goes on. -/
theorem list_step (place : S) (places fuel : Nat) :
    list size emits next more count (fuel + 1) (next^[places] place) (usedAfter size emits next place places)
        (records emits next place places) =
      if Stops size emits next more count place (places + 1) then
        some (usedAfter size emits next place (places + 1), records emits next place (places + 1))
      else list size emits next more count fuel (next^[places + 1] place)
        (usedAfter size emits next place (places + 1)) (records emits next place (places + 1)) := by
  have counted : (match emits (next^[places] place) with
      | some record => (usedAfter size emits next place places + BitVec.ofNat 32 size,
          records emits next place places ++ [record])
      | none => (usedAfter size emits next place places, records emits next place places)) =
      (usedAfter size emits next place (places + 1), records emits next place (places + 1)) := by
    rw [usedAfter, usedAfter, records_succ]
    cases emits (next^[places] place) with
    | none => rw [Option.toList, List.append_nil]
    | some record =>
      rw [Option.toList, List.length_append, List.length_singleton, Nat.mul_succ, BitVec.ofNat_add]
  rw [list, counted, ← Function.iterate_succ_apply' next]
  dsimp only
  rw [ite_cond_congr (propext stops_iff_not), ite_not]

theorem visits_step (place : S) (places fuel : Nat) :
    visits size emits next more count (fuel + 1) (next^[places] place) (usedAfter size emits next place places) =
      next^[places] place :: if Stops size emits next more count place (places + 1) then []
        else visits size emits next more count fuel (next^[places + 1] place)
          (usedAfter size emits next place (places + 1)) := by
  have counted : (if (emits (next^[places] place)).isSome = true
      then usedAfter size emits next place places + BitVec.ofNat 32 size else usedAfter size emits next place places) =
      usedAfter size emits next place (places + 1) := by
    rw [usedAfter, usedAfter, records_succ]
    cases emits (next^[places] place) with
    | none => rw [Option.toList, List.append_nil]; rfl
    | some record =>
      rw [Option.toList, List.length_append, List.length_singleton, Nat.mul_succ, BitVec.ofNat_add]
      rfl
  rw [visits, counted, ← Function.iterate_succ_apply' next, ite_cond_congr (propext stops_iff_not), ite_not]

theorem exists_stop_of_list {place : S} (places : Nat) {fuel : Nat} {result : Word × List N}
    (run : list size emits next more count fuel (next^[places] place) (usedAfter size emits next place places)
      (records emits next place places) = some result) :
    ∃ last, places < last ∧ last ≤ places + fuel ∧ Stops size emits next more count place last ∧
      (∀ i, places < i → i < last → ¬Stops size emits next more count place i) ∧
      result = (usedAfter size emits next place last, records emits next place last) := by
  induction fuel generalizing places with
  | zero => cases run
  | succ fuel ih =>
    rw [list_step] at run
    by_cases stops : Stops size emits next more count place (places + 1)
    · rw [if_pos stops] at run
      cases run
      exact ⟨places + 1, Nat.lt_succ_self _, by omega, stops, fun i after before => absurd after (by omega), rfl⟩
    · rw [if_neg stops] at run
      obtain ⟨last, later, soon, ends, first, same⟩ := ih (places + 1) run
      refine ⟨last, Nat.lt_of_succ_lt later, by omega, ends, fun i after before => ?_, same⟩
      rcases Nat.lt_or_eq_of_le (Nat.succ_le_of_lt after) with after | now
      · exact first i after before
      · exact now ▸ stops

theorem list_of_stop {place : S} {last : Nat} (ends : Stops size emits next more count place last) (places : Nat)
    (first : ∀ i, places < i → i < last → ¬Stops size emits next more count place i) {fuel : Nat}
    (enough : places + fuel + 1 = last) :
    list size emits next more count (fuel + 1) (next^[places] place) (usedAfter size emits next place places)
      (records emits next place places) =
      some (usedAfter size emits next place last, records emits next place last) := by
  induction fuel generalizing places with
  | zero =>
    cases enough
    rw [list_step, if_pos ends]
  | succ fuel ih =>
    have goesOn : ¬Stops size emits next more count place (places + 1) := first _ (by omega) (by omega)
    rw [list_step, if_neg goesOn]
    exact ih _ (fun i after before => first i (by omega) before) (by omega)

/-- The places up to the first test that ends the loop. -/
theorem visits_of_stop {place : S} {last : Nat} (ends : Stops size emits next more count place last) (places : Nat)
    (first : ∀ i, places < i → i < last → ¬Stops size emits next more count place i) {fuel : Nat} (after : places < last)
    (enough : last ≤ places + fuel) :
    visits size emits next more count fuel (next^[places] place) (usedAfter size emits next place places) =
      (List.range' places (last - places)).map fun i => next^[i] place := by
  induction fuel generalizing places with
  | zero => exact absurd enough (by omega)
  | succ fuel ih =>
    rw [visits_step]
    obtain ⟨left, split⟩ : ∃ left, last - places = left + 1 := ⟨last - places - 1, by omega⟩
    rw [split, List.range'_succ, List.map_cons]
    by_cases stops : Stops size emits next more count place (places + 1)
    · have here : last = places + 1 := by
        by_contra later
        exact first (places + 1) (Nat.lt_succ_self _) (by omega) stops
      have none : left = 0 := by omega
      rw [if_pos stops, none, List.range'_zero, List.map_nil]
    · have later : places + 1 < last := by
        by_contra here
        have same : last = places + 1 := by omega
        exact stops (same ▸ ends)
      have rest : last - (places + 1) = left := by omega
      rw [if_neg stops, ih _ (fun i after before => first i (by omega) before) later (by omega), rest]

/-- A run that ends comes to the places up to the first test that ends it. -/
theorem visits_of_list {place : S} {fuel : Nat} {result : Word × List N}
    (run : list size emits next more count fuel place 0#32 [] = some result) :
    ∃ last, 0 < last ∧ Stops size emits next more count place last ∧
      (∀ i, 0 < i → i < last → ¬Stops size emits next more count place i) ∧
      result = (usedAfter size emits next place last, records emits next place last) ∧
      visits size emits next more count fuel place 0#32 = (List.range last).map fun i => next^[i] place := by
  obtain ⟨last, after, soon, ends, first, same⟩ := exists_stop_of_list 0 run
  refine ⟨last, after, ends, first, same, ?_⟩
  rw [List.range_eq_range']
  exact visits_of_stop ends 0 first after soon

theorem exists_list_visits {place : S} {last : Nat} (after : 0 < last)
    (ends : Stops size emits next more count place last)
    (first : ∀ i, 0 < i → i < last → ¬Stops size emits next more count place i) :
    ∃ fuel, list size emits next more count fuel place 0#32 [] =
        some (usedAfter size emits next place last, records emits next place last) ∧
      visits size emits next more count fuel place 0#32 = (List.range last).map fun i => next^[i] place := by
  obtain ⟨fuel, rfl⟩ := Nat.exists_eq_add_one.mpr after
  rw [List.range_eq_range']
  exact ⟨fuel + 1, list_of_stop ends 0 first (Nat.zero_add _ ▸ rfl),
    visits_of_stop ends 0 first after (Nat.zero_add _ ▸ Nat.le_refl _)⟩

/-- What the loop leaves: the records of the places up to the first test that ends it. -/
theorem list_iff (place : S) (result : Word × List N) :
    (∃ fuel, list size emits next more count fuel place 0#32 [] = some result) ↔
      ∃ last, 0 < last ∧ Stops size emits next more count place last ∧
        (∀ i, 0 < i → i < last → ¬Stops size emits next more count place i) ∧
        result = (usedAfter size emits next place last, records emits next place last) := by
  constructor
  · rintro ⟨fuel, run⟩
    obtain ⟨last, after, ends, first, same, -⟩ := visits_of_list run
    exact ⟨last, after, ends, first, same⟩
  · rintro ⟨last, after, ends, first, rfl⟩
    obtain ⟨fuel, run, -⟩ := exists_list_visits after ends first
    exact ⟨fuel, run⟩

/-- The first test of those that would end the loop. -/
theorem exists_first_stop {place : S} {places : Nat} (positive : 0 < places)
    (ends : Stops size emits next more count place places) :
    ∃ last, 0 < last ∧ last ≤ places ∧ Stops size emits next more count place last ∧
      ∀ i, 0 < i → i < last → ¬Stops size emits next more count place i := by
  have exists_stop : ∃ last, 0 < last ∧ Stops size emits next more count place last := ⟨places, positive, ends⟩
  obtain ⟨first, stops⟩ := Nat.find_spec exists_stop
  exact ⟨Nat.find exists_stop, first, Nat.find_min' exists_stop ⟨positive, ends⟩, stops,
    fun i after before stop => Nat.find_min exists_stop before ⟨after, stop⟩⟩

/-- The loop ends and comes only to places with a property exactly if some test would end it behind such places. -/
theorem list_visits_iff (place : S) (proper : S → Prop) :
    (∃ fuel result, list size emits next more count fuel place 0#32 [] = some result ∧
        ∀ visited ∈ visits size emits next more count fuel place 0#32, proper visited) ↔
      ∃ places, 0 < places ∧ Stops size emits next more count place places ∧ ∀ i < places, proper (next^[i] place) := by
  constructor
  · rintro ⟨fuel, result, run, all⟩
    obtain ⟨last, after, ends, -, -, visited⟩ := visits_of_list run
    refine ⟨last, after, ends, fun i before => all _ ?_⟩
    rw [visited]
    exact List.mem_map.mpr ⟨i, List.mem_range.mpr before, rfl⟩
  · rintro ⟨places, after, ends, all⟩
    obtain ⟨last, after, le, ends, first⟩ := exists_first_stop after ends
    obtain ⟨fuel, run, visited⟩ := exists_list_visits after ends first
    refine ⟨fuel, _, run, fun place mem => ?_⟩
    rw [visited] at mem
    obtain ⟨i, before, rfl⟩ := List.mem_map.mp mem
    exact all i (Nat.lt_of_lt_of_le (List.mem_range.mp before) le)

/-- While less than half of the numbers are used the test is that of the numbers. -/
theorem stops_iff {place : S} {places : Nat} (small : size < 2 ^ 31)
    (short : size * (records emits next place places).length < 2 ^ 31) :
    Stops size emits next more count place places ↔
      more (next^[places] place) = false ∨
        count.toNat ≤ size * ((records emits next place places).length + 1) := by
  rw [Stops, BitVec.le_def, usedAfter, ← BitVec.ofNat_add, BitVec.toNat_ofNat, ← Nat.mul_succ, Nat.mod_eq_of_lt]
  rw [Nat.mul_succ]
  omega

/-- The records lie in the room that there is, and the count of their bytes, as a signed number, is right. -/
def Fits (size : Nat) (count : Word) (result : Word × List N) : Prop :=
  size * result.2.length ≤ count.toNat ∧ result.1.toInt = size * result.2.length

theorem toInt_ofNat_iff (n : Nat) : (BitVec.ofNat 32 n).toInt = n ↔ n < 2 ^ 31 := by
  have value := BitVec.toInt_eq_toNat_cond (BitVec.ofNat 32 n)
  rw [BitVec.toNat_ofNat] at value
  split at value <;> omega

theorem toInt_usedAfter_iff (place : S) (places : Nat) :
    (usedAfter size emits next place places).toInt = size * (records emits next place places).length ↔
      size * (records emits next place places).length < 2 ^ 31 := by
  rw [usedAfter, ← Int.natCast_mul]
  exact toInt_ofNat_iff _

/-- The loop keeps to the room exactly if its first record does and it ends, by the numbers, before half of
them are used. -/
theorem list_fits_iff (small : size < 2 ^ 31) (place : S) :
    (∃ fuel result, list size emits next more count fuel place 0#32 [] = some result ∧ Fits size count result) ↔
      (size ≤ count.toNat ∨ emits place = none) ∧
        ∃ places, 0 < places ∧ size * (records emits next place places).length < 2 ^ 31 ∧
          (more (next^[places] place) = false ∨
            count.toNat ≤ size * ((records emits next place places).length + 1)) := by
  constructor
  · rintro ⟨fuel, result, run, inside, signed⟩
    obtain ⟨last, after, ends, first, rfl⟩ := (list_iff place result).mp ⟨fuel, run⟩
    have short := (toInt_usedAfter_iff place last).mp signed
    refine ⟨?_, last, after, short, (stops_iff small short).mp ends⟩
    by_contra neither
    obtain ⟨less, written⟩ := not_or.mp neither
    obtain ⟨record, written⟩ := Option.ne_none_iff_exists'.mp written
    have one := length_records_mono emits next place (Nat.succ_le_of_lt after)
    rw [Nat.succ_eq_add_one, Nat.zero_add, length_records_one written] at one
    have whole := Nat.mul_le_mul_left size one
    dsimp only at inside
    omega
  · rintro ⟨room, places, after, short, ends⟩
    obtain ⟨last, after, le, stops, first⟩ := exists_first_stop after ((stops_iff small short).mpr ends)
    have fewer : (records emits next place last).length ≤ (records emits next place places).length :=
      length_records_mono emits next place le
    have shorter := Nat.lt_of_le_of_lt (Nat.mul_le_mul_left size fewer) short
    obtain ⟨fuel, run⟩ := (list_iff place _).mpr ⟨last, after, stops, first, rfl⟩
    refine ⟨fuel, _, run, ?_, (toInt_usedAfter_iff place last).mpr shorter⟩
    -- the record before the last one had room, or the last one is the first
    obtain ⟨before, rfl⟩ := Nat.exists_eq_add_one.mpr after
    have atMostOne := length_records_succ emits next place before
    by_cases single : before = 0
    · subst single
      dsimp only
      rcases room with room | unwritten
      · have whole := Nat.mul_le_mul_left size atMostOne
        have nothing : (records emits next place 0).length = 0 := rfl
        rw [nothing] at whole
        omega
      · rw [records_succ, Function.iterate_zero_apply, unwritten]
        exact Nat.zero_le _
    · have goesOn := first before (Nat.pos_of_ne_zero single) (Nat.lt_succ_self _)
      have notMore := length_records_mono emits next place (Nat.le_succ before)
      have still := Nat.lt_of_le_of_lt (Nat.mul_le_mul_left size notMore) shorter
      rw [stops_iff small still, not_or] at goesOn
      have whole := Nat.mul_le_mul_left size atMostOne
      dsimp only
      omega

theorem exists_place_of_mem {place : S} {fuel : Nat} {result : Word × List N}
    (run : list size emits next more count fuel place 0#32 [] = some result) {record : N} (mem : record ∈ result.2) :
    ∃ at_place, emits at_place = some record := by
  obtain ⟨last, -, -, -, rfl⟩ := (list_iff place result).mp ⟨fuel, run⟩
  obtain ⟨i, -, written⟩ := List.mem_filterMap.mp mem
  exact ⟨_, written⟩

/-! ## The first records -/

theorem records_le (place : S) {places further : Nat} (le : places ≤ further) :
    records emits next place places <+: records emits next place further := by
  induction le with
  | refl => exact List.prefix_rfl
  | @step further le ih =>
    rw [records_succ]
    exact ih.trans (List.prefix_append _ _)

/-- A loop with room for so many records, over places that end behind the first `all` ones, lists that many of
their records, or all. -/
theorem records_of_first_stop {place : S} {room all last : Nat} (short : size * room < 2 ^ 31) (small : size < 2 ^ 31)
    (holds : ∀ n, count.toNat ≤ size * (n + 1) ↔ room ≤ n) (some_room : 0 < room)
    (ended : more (next^[all] place) = false) (goesOn : ∀ i, 0 < i → i < all → more (next^[i] place) = true)
    (some_places : 0 < all) (after : 0 < last) (stops : Stops size emits next more count place last)
    (first : ∀ i, 0 < i → i < last → ¬Stops size emits next more count place i) :
    records emits next place last = (records emits next place all).take room := by
  have least : last ≤ all := by
    by_contra later
    exact first all some_places (Nat.lt_of_not_le later) (.inl ended)
  -- before the test that ends it the loop has room
  have fits (i : Nat) (le : i ≤ last) : (records emits next place i).length ≤ room := by
    induction i with
    | zero => exact Nat.zero_le _
    | succ i ih =>
      have one := length_records_succ emits next place i
      have before := ih (Nat.le_of_succ_le le)
      by_contra many
      have full : (records emits next place i).length = room := by omega
      have later : 0 < i := by
        rcases Nat.eq_zero_or_pos i with rfl | later
        · exact absurd full (Nat.ne_of_lt some_room)
        · exact later
      refine first i later le ((stops_iff small (by rw [full]; exact short)).mpr (.inr ?_))
      exact (holds _).mpr (Nat.le_of_eq full.symm)
  have shorter : size * (records emits next place last).length < 2 ^ 31 :=
    Nat.lt_of_le_of_lt (Nat.mul_le_mul_left size (fits last (Nat.le_refl _))) short
  have beginning := List.prefix_iff_eq_take.mp (@records_le _ _ emits next place _ _ least)
  rcases (stops_iff small shorter).mp stops with noMore | full
  · have whole : last = all := by
      by_contra other
      exact absurd (goesOn last after (Nat.lt_of_le_of_ne least other)) (by rw [noMore]; decide)
    subst whole
    exact (List.take_of_length_le (fits last (Nat.le_refl _))).symm
  · have exact_room := Nat.le_antisymm (fits last (Nat.le_refl _)) ((holds _).mp full)
    rwa [exact_room] at beginning

end FluxOS.RecordListing
