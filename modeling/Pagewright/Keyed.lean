/-! Entries under distinct keys, in the order in which the keys first came. Writing to a key
that is present replaces its value and leaves its place, so a table built from a stream holds
each key at its first occurrence with the value of its last. -/

namespace Pagewright

def insertEntry [DecidableEq κ] (key : κ) (value : ν) : List (κ × ν) → List (κ × ν)
  | [] => [(key, value)]
  | (k, v) :: rest =>
    if k = key then (key, value) :: rest else (k, v) :: insertEntry key value rest

theorem keys_insertEntry [DecidableEq κ] (key : κ) (value : ν) (entries : List (κ × ν)) :
    (insertEntry key value entries).map Prod.fst =
      if key ∈ entries.map Prod.fst then entries.map Prod.fst
      else entries.map Prod.fst ++ [key] := by
  induction entries with
  | nil => rfl
  | cons entry rest ih =>
    obtain ⟨k, v⟩ := entry
    by_cases same : k = key
    · simp [insertEntry, same]
    · have other : ¬ key = k := fun h => same h.symm
      by_cases present : key ∈ rest.map Prod.fst <;>
        simp_all [insertEntry]

theorem mem_keys_insertEntry [DecidableEq κ] {key other : κ} {value : ν} {entries : List (κ × ν)} :
    other ∈ (insertEntry key value entries).map Prod.fst ↔ other = key ∨ other ∈ entries.map Prod.fst := by
  rw [keys_insertEntry]
  split
  next present => exact ⟨.inr, fun given => given.elim (· ▸ present) id⟩
  next => simp only [List.mem_append, List.mem_singleton, or_comm]

theorem insertEntry_of_new [DecidableEq κ] {key : κ} {value : ν} {entries : List (κ × ν)}
    (new : key ∉ entries.map Prod.fst) : insertEntry key value entries = entries ++ [(key, value)] := by
  induction entries with
  | nil => rfl
  | cons entry rest ih =>
    obtain ⟨other, old⟩ := entry
    have apart : ¬ other = key := fun same => new (by simp [same])
    rw [insertEntry, if_neg apart, ih fun member => new (by simp [member]), List.cons_append]

theorem mem_insertEntry [DecidableEq κ] {key : κ} {value : ν} {entries : List (κ × ν)} {entry : κ × ν}
    (member : entry ∈ insertEntry key value entries) : entry = (key, value) ∨ entry ∈ entries := by
  induction entries with
  | nil => exact .inl (List.mem_singleton.mp member)
  | cons first rest ih =>
    rw [insertEntry] at member
    split at member
    next => exact (List.mem_cons.mp member).imp_right (List.mem_cons_of_mem _)
    next =>
      rcases List.mem_cons.mp member with rfl | later
      · exact .inr List.mem_cons_self
      · exact (ih later).imp_right (List.mem_cons_of_mem _)

theorem insertEntry_insertEntry [DecidableEq κ] (key : κ) (old value : ν) (entries : List (κ × ν)) :
    insertEntry key value (insertEntry key old entries) = insertEntry key value entries := by
  induction entries with
  | nil => simp [insertEntry]
  | cons entry rest ih =>
    obtain ⟨k, v⟩ := entry
    by_cases same : k = key <;> simp [insertEntry, same, ih]

/-- A key that is present keeps its place, so writing to it does not depend on what else is written. -/
theorem insertEntry_comm [DecidableEq κ] {key other : κ} (apart : other ≠ key) {value added : ν}
    {entries : List (κ × ν)} (present : key ∈ entries.map Prod.fst) :
    insertEntry other added (insertEntry key value entries) =
      insertEntry key value (insertEntry other added entries) := by
  induction entries with
  | nil => cases present
  | cons entry rest ih =>
    obtain ⟨k, v⟩ := entry
    by_cases here : k = key
    · have different : ¬ k = other := fun same => apart (same.symm.trans here)
      simp [insertEntry, here, apart.symm]
    · have later : key ∈ rest.map Prod.fst := by
        rcases List.mem_cons.mp present with same | later
        · exact absurd same.symm here
        · exact later
      by_cases there : k = other <;> simp [insertEntry, here, there, apart, ih later]

structure Keyed (κ ν : Type) where
  entries : List (κ × ν)
  distinct : (entries.map Prod.fst).Nodup

namespace Keyed

variable {κ ν ν' : Type}

@[ext] theorem ext {first second : Keyed κ ν} (same : first.entries = second.entries) :
    first = second := by
  cases first; cases second; cases same; rfl

instance [DecidableEq κ] [DecidableEq ν] : DecidableEq (Keyed κ ν) := fun first second =>
  decidable_of_iff (first.entries = second.entries) ⟨ext, congrArg entries⟩

def empty : Keyed κ ν := ⟨[], List.nodup_nil⟩

instance : Inhabited (Keyed κ ν) := ⟨empty⟩
instance : EmptyCollection (Keyed κ ν) := ⟨empty⟩

def isEmpty (table : Keyed κ ν) : Bool := table.entries.isEmpty

def map (table : Keyed κ ν) (f : ν → ν') : Keyed κ ν' where
  entries := table.entries.map fun entry => (entry.1, f entry.2)
  distinct := by simpa [Function.comp_def] using table.distinct

variable [DecidableEq κ]

def insert (table : Keyed κ ν) (key : κ) (value : ν) : Keyed κ ν where
  entries := insertEntry key value table.entries
  distinct := by
    rw [keys_insertEntry]
    split
    · exact table.distinct
    · next absent =>
      rw [List.nodup_append]
      refine ⟨table.distinct, by simp, ?_⟩
      intro k present other last
      simp only [List.mem_singleton] at last
      rintro rfl
      exact absent (last ▸ present)

def get? (table : Keyed κ ν) (key : κ) : Option ν := table.entries.lookup key

def erase (table : Keyed κ ν) (key : κ) : Keyed κ ν where
  entries := table.entries.filter fun entry => entry.1 ≠ key
  distinct := table.distinct.sublist (List.filter_sublist.map _)

def ofList (stream : List (κ × ν)) : Keyed κ ν :=
  stream.foldl (fun table entry => table.insert entry.1 entry.2) ∅

/-- Entries under distinct keys stay in their places. -/
theorem entries_foldl_insert {stream : List (κ × ν)} {known : Keyed κ ν}
    (distinct : ((known.entries ++ stream).map Prod.fst).Nodup) :
    (stream.foldl (fun table entry => table.insert entry.1 entry.2) known).entries =
      known.entries ++ stream := by
  induction stream generalizing known with
  | nil => simp
  | cons entry rest ih =>
    have new : entry.1 ∉ known.entries.map Prod.fst := by
      rw [List.map_append, List.nodup_append] at distinct
      intro member
      exact distinct.2.2 _ member _ (by simp) rfl
    have inserted : (known.insert entry.1 entry.2).entries = known.entries ++ [entry] :=
      insertEntry_of_new new
    rw [List.foldl_cons, ih (by rw [inserted]; simpa using distinct), inserted]
    simp

theorem entries_ofList {stream : List (κ × ν)} (distinct : (stream.map Prod.fst).Nodup) :
    (ofList stream).entries = stream :=
  @entries_foldl_insert κ ν _ stream ∅ distinct

theorem ofList_entries (table : Keyed κ ν) : ofList table.entries = table :=
  ext (entries_ofList table.distinct)

theorem mem_foldl_insert {stream : List (κ × ν)} {known : Keyed κ ν} {entry : κ × ν}
    (member : entry ∈ (stream.foldl (fun table entry => table.insert entry.1 entry.2) known).entries) :
    entry ∈ known.entries ∨ entry ∈ stream := by
  induction stream generalizing known with
  | nil => exact .inl member
  | cons first rest ih =>
    rcases ih member with early | late
    · rcases mem_insertEntry early with rfl | old
      · exact .inr List.mem_cons_self
      · exact .inl old
    · exact .inr (List.mem_cons_of_mem _ late)

theorem mem_ofList {stream : List (κ × ν)} {entry : κ × ν} (member : entry ∈ (ofList stream).entries) :
    entry ∈ stream :=
  (mem_foldl_insert member).resolve_left List.not_mem_nil

end Keyed
end Pagewright
