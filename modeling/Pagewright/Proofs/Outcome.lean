import Pagewright.Expansion.Instances

/-! Computations that end in a value or an error, taken apart step by step. A list is mapped
successfully exactly when each of its items is. -/

namespace Pagewright

variable {ε α β : Type}

theorem bind_eq_ok {outcome : Except ε α} {next : α → Except ε β} {result : β} :
    (outcome >>= next) = .ok result ↔ ∃ value, outcome = .ok value ∧ next value = .ok result := by
  cases outcome <;> simp [bind, Except.bind]

theorem mapError_eq_ok {ε' : Type} {outcome : Except ε α} {f : ε → ε'} {result : α} :
    outcome.mapError f = .ok result ↔ outcome = .ok result := by
  cases outcome with
  | error fault => exact ⟨nofun, nofun⟩
  | ok value => exact ⟨fun same => by cases same; rfl, fun same => by cases same; rfl⟩

theorem map_eq_ok {outcome : Except ε α} {f : α → β} {result : β} :
    (f <$> outcome) = .ok result ↔ ∃ value, outcome = .ok value ∧ f value = result := by
  cases outcome <;> simp [Functor.map, Except.map]

namespace Expansion

theorem mapList_nil_eq_ok {f : α → Except ε β} {results : List β} :
    mapList f [] = .ok results ↔ results = [] := by
  simp [mapList, eq_comm]

theorem mapList_cons_eq_ok {f : α → Except ε β} {first : α} {rest : List α} {results : List β} :
    mapList f (first :: rest) = .ok results ↔
      ∃ head tail, f first = .ok head ∧ mapList f rest = .ok tail ∧ results = head :: tail := by
  simp only [mapList, bind_eq_ok, pure, Except.pure, Except.ok.injEq]
  constructor
  · intro given
    obtain ⟨head, mapped, tail, others, rfl⟩ := given
    exact ⟨head, tail, mapped, others, rfl⟩
  · intro given
    obtain ⟨head, tail, mapped, others, rfl⟩ := given
    exact ⟨head, mapped, tail, others, rfl⟩

/-- Every result comes from an item of the list. -/
theorem mem_mapList {f : α → Except ε β} {items : List α} {results : List β} {result : β}
    (mapped : mapList f items = .ok results) (member : result ∈ results) :
    ∃ item ∈ items, f item = .ok result := by
  induction items generalizing results with
  | nil =>
    rw [mapList_nil_eq_ok.mp mapped] at member
    cases member
  | cons first rest ih =>
    obtain ⟨head, tail, found, others, rfl⟩ := mapList_cons_eq_ok.mp mapped
    rcases List.mem_cons.mp member with rfl | later
    · exact ⟨first, by simp, found⟩
    · obtain ⟨item, inside, same⟩ := ih others later
      exact ⟨item, by simp [inside], same⟩

theorem exists_of_mapList {f : α → Except ε β} {items : List α} {results : List β} {item : α}
    (mapped : mapList f items = .ok results) (member : item ∈ items) : ∃ result, f item = .ok result := by
  induction items generalizing results with
  | nil => cases member
  | cons first rest ih =>
    obtain ⟨head, tail, found, others, _⟩ := mapList_cons_eq_ok.mp mapped
    rcases List.mem_cons.mp member with rfl | later
    · exact ⟨head, found⟩
    · exact ih others later

theorem mapList_of_exists {f : α → Except ε β} {items : List α}
    (each : ∀ item ∈ items, ∃ result, f item = .ok result) : ∃ results, mapList f items = .ok results := by
  induction items with
  | nil => exact ⟨[], rfl⟩
  | cons first rest ih =>
    obtain ⟨head, found⟩ := each first List.mem_cons_self
    obtain ⟨tail, mapped⟩ := ih fun item member => each item (List.mem_cons_of_mem _ member)
    exact ⟨head :: tail, mapList_cons_eq_ok.mpr ⟨head, tail, found, mapped, rfl⟩⟩

theorem getElem?_mapList {f : α → Except ε β} {items : List α} {results : List β} {position : Nat}
    {item : α} {result : β} (mapped : mapList f items = .ok results)
    (original : items[position]? = some item) (there : results[position]? = some result) :
    f item = .ok result := by
  induction items generalizing results position with
  | nil => cases original
  | cons first rest ih =>
    obtain ⟨head, tail, found, others, rfl⟩ := mapList_cons_eq_ok.mp mapped
    cases position with
    | zero =>
      cases original
      cases there
      exact found
    | succ position => exact ih others original there

/-- Changing the items before goes with changing the results after. -/
theorem mapList_map {γ δ : Type} {f : α → Except ε β} {g : γ → Except ε δ} {before : α → γ} {after : β → δ}
    {items : List α} {results : List β}
    (each : ∀ item ∈ items, ∀ result, f item = .ok result → g (before item) = .ok (after result))
    (mapped : mapList f items = .ok results) :
    mapList g (items.map before) = .ok (results.map after) := by
  induction items generalizing results with
  | nil =>
    rw [mapList_nil_eq_ok.mp mapped]
    rfl
  | cons first rest ih =>
    obtain ⟨head, tail, found, others, rfl⟩ := mapList_cons_eq_ok.mp mapped
    refine mapList_cons_eq_ok.mpr ⟨after head, tail.map after, each first List.mem_cons_self head found, ?_, rfl⟩
    exact ih (fun item member => each item (List.mem_cons_of_mem _ member)) others

theorem mapList_congr {f g : α → Except ε β} {items : List α}
    (same : ∀ item ∈ items, f item = g item) : mapList f items = mapList g items := by
  induction items with
  | nil => rfl
  | cons first rest ih =>
    rw [mapList, mapList, same first (by simp), ih (fun item member => same item (by simp [member]))]

theorem mapOption_eq_none {f : α → Except ε β} {value : Option α} :
    mapOption f value = .ok none ↔ value = none := by
  cases value with
  | none => simp [mapOption]
  | some original => simp [mapOption, map_eq_ok]

theorem mapOption_eq_some {f : α → Except ε β} {value : Option α} {changed : β} :
    mapOption f value = .ok (some changed) ↔
      ∃ original, value = some original ∧ f original = .ok changed := by
  cases value with
  | none => simp [mapOption]
  | some original => simp [mapOption, map_eq_ok]

end Expansion
end Pagewright
