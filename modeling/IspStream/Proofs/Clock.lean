import IspStream.Clock
import Mathlib.Data.List.Basic
import Mathlib.Order.Bounds.Basic

/-!
# The frequency that a request selects

A request selects the greatest frequency of the table that does not exceed it, as long as it
lies between the lowest frequency and the cutoff above the highest one.  Any other request
selects the fallback (`divider_selects`).

The search goes through the table once and keeps a choice.  What it knows of the entries that
it has seen is `Choice.Nearest`: none that the request allows is nearer than the choice, and
the choice is one of them or still the one it began with.  One entry keeps this
(`Choice.Nearest.improve`), whatever the order of the table, and the bounds of the table enter
only at the end.
-/

namespace IspStream.Clock

/-- What is known of the choice behind some entries of the table. -/
structure Choice.Nearest (request : Int) (entries : List (Nat × Nat)) (choice : Choice) :
    Prop where
  /-- No entry that the request allows is nearer. -/
  distance_le : ∀ entry ∈ entries, (entry.1 : Int) ≤ request →
    choice.distance ≤ request - entry.1
  /-- The choice is one of these entries, or none of them lies within the cutoff. -/
  origin : choice = ⟨fallback, cutoff⟩ ∨
    ∃ entry ∈ entries, (entry.1 : Int) ≤ request ∧ request - entry.1 < cutoff ∧
      choice = ⟨entry.2, request - entry.1⟩

variable {request : Int} {done : List (Nat × Nat)} {choice : Choice}

/-! ## The search through the table -/

theorem Choice.Nearest.distance_le_cutoff (h : Nearest request done choice) :
    choice.distance ≤ cutoff := by
  rcases h.origin with rfl | ⟨entry, -, -, hnear, rfl⟩
  · exact le_rfl
  · exact hnear.le

/-- One entry more. -/
theorem Choice.Nearest.improve (h : Nearest request done choice) (entry : Nat × Nat) :
    Nearest request (done ++ [entry]) (choice.improve request entry) := by
  have hcutoff := h.distance_le_cutoff
  unfold Choice.improve
  simp only
  split
  · rename_i hbetter
    refine ⟨fun other hother hallowed => ?_, Or.inr ⟨entry, by simp, by omega, ?_, rfl⟩⟩
    · rcases List.mem_append.mp hother with hbefore | hhere
      · exact hbetter.2.le.trans (h.distance_le other hbefore hallowed)
      · rw [List.mem_singleton.mp hhere]
    · exact hbetter.2.trans_le hcutoff
  · rename_i hworse
    refine ⟨fun other hother hallowed => ?_, h.origin.imp_right ?_⟩
    · rcases List.mem_append.mp hother with hbefore | hhere
      · exact h.distance_le other hbefore hallowed
      · obtain rfl := List.mem_singleton.mp hhere
        omega
    · rintro ⟨other, hother, hother'⟩
      exact ⟨other, List.mem_append_left _ hother, hother'⟩

theorem Choice.Nearest.foldl (h : Nearest request done choice) (entries : List (Nat × Nat)) :
    Nearest request (done ++ entries) (entries.foldl (Choice.improve request) choice) := by
  induction entries generalizing done choice with
  | nil => rwa [List.append_nil]
  | cons entry rest ih =>
      have hrest := ih (h.improve entry)
      rwa [List.append_assoc, List.singleton_append] at hrest

/-- The divider is that of the fallback, with no frequency within the cutoff, or that of the
greatest frequency that the request allows. -/
theorem divider_cases (request : Int) :
    (divider request = fallback ∧
      ∀ frequency ∈ frequencies, (frequency : Int) ≤ request → cutoff ≤ request - frequency) ∨
    ∃ selected, frequencies[divider request]? = some selected ∧ (selected : Int) ≤ request ∧
      request - selected < cutoff ∧
      ∀ frequency ∈ frequencies, (frequency : Int) ≤ request → frequency ≤ selected := by
  have hstart : Choice.Nearest request [] ⟨fallback, cutoff⟩ :=
    ⟨fun _ h => absurd h List.not_mem_nil, Or.inl rfl⟩
  have hsearch := hstart.foldl frequencies.zipIdx
  rw [List.nil_append] at hsearch
  unfold divider
  generalize frequencies.zipIdx.foldl (Choice.improve request) ⟨fallback, cutoff⟩ = choice
    at hsearch ⊢
  have hnear : ∀ frequency ∈ frequencies, (frequency : Int) ≤ request →
      choice.distance ≤ request - frequency := by
    intro frequency hfrequency hallowed
    obtain ⟨index, hindex⟩ := List.mem_iff_getElem?.mp hfrequency
    exact hsearch.distance_le (frequency, index) (List.mk_mem_zipIdx_iff_getElem?.mpr hindex)
      hallowed
  rcases hsearch.origin with rfl | ⟨⟨selected, index⟩, hentry, hallowed, hwithin, rfl⟩
  · exact Or.inl ⟨rfl, hnear⟩
  · refine Or.inr ⟨selected, List.mk_mem_zipIdx_iff_getElem?.mp hentry, hallowed, hwithin, ?_⟩
    intro frequency hfrequency hbelow
    have := hnear frequency hfrequency hbelow
    simp only at this
    omega

/-! ## The table -/

theorem divider_lt (request : Int) : divider request < frequencies.length := by
  rcases divider_cases request with ⟨hfallback, -⟩ | ⟨selected, hselected, -⟩
  · rw [hfallback]
    decide
  · exact (List.getElem?_eq_some_iff.mp hselected).1

/-- The frequency that a request selects. -/
def frequency (request : Int) : Nat := frequencies.get ⟨divider request, divider_lt request⟩

/-- The requests that are served: from the lowest frequency up to the cutoff above the highest
one. -/
def served : Set Int := {request | 62500 ≤ request ∧ request < 12000000}

/-- The frequencies that a request allows. -/
def allowed (request : Int) : Set Nat :=
  {frequency | frequency ∈ frequencies ∧ (frequency : Int) ≤ request}

theorem bounds_of_mem_frequencies {frequency : Nat} (h : frequency ∈ frequencies) :
    62500 ≤ frequency ∧ frequency ≤ 4000000 := by
  revert frequency
  decide

/-- A frequency lies within the cutoff exactly if the request is served. -/
theorem mem_served_iff :
    request ∈ served ↔
      ∃ frequency ∈ frequencies, (frequency : Int) ≤ request ∧ request - frequency < cutoff := by
  rw [served, Set.mem_ofPred_eq, cutoff]
  constructor
  · rintro ⟨hlow, hhigh⟩
    -- the highest frequency is near enough, or the request lies below it and the lowest one is
    by_cases hbelow : request < 4000000
    · exact ⟨62500, by decide, hlow, by omega⟩
    · exact ⟨4000000, by decide, by omega, by omega⟩
  · rintro ⟨frequency, hfrequency, hallowed, hwithin⟩
    have := bounds_of_mem_frequencies hfrequency
    omega

theorem isGreatest_frequency (h : request ∈ served) :
    IsGreatest (allowed request) (frequency request) := by
  obtain ⟨near, hnear, hallowed, hwithin⟩ := mem_served_iff.mp h
  rcases divider_cases request with ⟨-, hfar⟩ | ⟨selected, hselected, hbelow, -, hgreatest⟩
  · exact absurd (hfar near hnear hallowed) (not_le.mpr hwithin)
  · obtain ⟨hlt, rfl⟩ := List.getElem?_eq_some_iff.mp hselected
    exact ⟨⟨List.getElem_mem hlt, hbelow⟩, fun other hother => hgreatest other hother.1 hother.2⟩

/-- **The clock is never faster than requested.**  The divider is an index of the table for
every request.  A request that is served selects the greatest frequency it allows, so that a
higher request never selects a lower frequency, and any other request selects the fallback. -/
theorem divider_selects :
    (∀ request, divider request < frequencies.length) ∧
      (∀ request ∈ served, IsGreatest (allowed request) (frequency request)) ∧
      (∀ lower ∈ served, ∀ higher ∈ served, lower ≤ higher → frequency lower ≤ frequency higher) ∧
      ∀ request ∉ served, divider request = 3 := by
  refine ⟨divider_lt, fun request => isGreatest_frequency, ?_, ?_⟩
  · intro lower hlower higher hhigher hle
    refine (isGreatest_frequency hlower).mono (isGreatest_frequency hhigher) ?_
    exact fun frequency hallowed => ⟨hallowed.1, hallowed.2.trans hle⟩
  · intro request hunserved
    rcases divider_cases request with ⟨hfallback, -⟩ | ⟨selected, hselected, hbelow, hwithin, -⟩
    · exact hfallback
    · exact absurd (mem_served_iff.mpr
        ⟨selected, List.mem_of_getElem? hselected, hbelow, hwithin⟩) hunserved

end IspStream.Clock
