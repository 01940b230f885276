import Mathlib.Data.List.Induction
import Mathlib.Data.List.Nodup
import Pagewright.Keyed

/-! What is left of a stream of entries that is written into a table: every key at the place of its
first entry, with the value of its last. -/

namespace Pagewright

variable {κ ν : Type} [DecidableEq κ]

/-- Entries with the keys of a stream in the order in which they first come, and the last value that
the stream has for each. -/
structure Gathers (stream entries : List (κ × ν)) : Prop where
  keys : entries.map Prod.fst = (stream.map Prod.fst).eraseDups
  values : ∀ key value, (key, value) ∈ entries →
    ∃ before after, stream = before ++ (key, value) :: after ∧ key ∉ after.map Prod.fst

omit [DecidableEq κ] in
/-- The last value under a key is one. -/
theorem last_unique {stream before after before' after' : List (κ × ν)} {key : κ} {value value' : ν}
    (split : stream = before ++ (key, value) :: after) (last : key ∉ after.map Prod.fst)
    (split' : stream = before' ++ (key, value') :: after') (last' : key ∉ after'.map Prod.fst) :
    value = value' := by
  rcases List.append_eq_append_iff.mp (split.symm.trans split') with ⟨more, _, behind⟩ | ⟨more, _, behind⟩
  all_goals
    cases more with
    | nil => simp_all
    | cons entry more =>
      obtain ⟨rfl, rfl⟩ := List.cons.inj behind
      simp at last last'

/-- A stream leaves the same entries behind every time. -/
theorem Gathers.unique {stream first second : List (κ × ν)} (gathers : Gathers stream first)
    (again : Gathers stream second) : first = second := by
  have keys := gathers.keys.trans again.keys.symm
  refine List.ext_getElem (by simpa using congrArg List.length keys) fun position one other => ?_
  have same : first[position].1 = second[position].1 := by
    have there := List.getElem_of_eq keys (by simpa using one)
    simpa using there
  obtain ⟨_, _, split, last⟩ := gathers.values first[position].1 first[position].2 (List.getElem_mem one)
  obtain ⟨_, _, split', last'⟩ := again.values second[position].1 second[position].2 (List.getElem_mem other)
  rw [← same] at split' last'
  exact Prod.ext same (last_unique split last split' last')

theorem eraseDups_concat (keys : List κ) (key : κ) :
    (keys ++ [key]).eraseDups = if key ∈ keys then keys.eraseDups else keys.eraseDups ++ [key] := by
  rw [List.eraseDups_append]
  by_cases known : key ∈ keys <;> simp [List.removeAll, List.eraseDups_cons, known]

theorem eraseDups_of_nodup {keys : List κ} (distinct : keys.Nodup) : keys.eraseDups = keys := by
  induction keys using List.reverseRecOn with
  | nil => rfl
  | append_singleton keys key ih =>
    rw [List.nodup_append] at distinct
    have new : key ∉ keys := fun member => distinct.2.2 key member key (by simp) rfl
    rw [eraseDups_concat, if_neg new, ih distinct.1]

theorem lookup_insertEntry (key other : κ) (value : ν) (entries : List (κ × ν)) :
    (insertEntry key value entries).lookup other =
      if other = key then some value else entries.lookup other := by
  have first : ∀ (known : κ) (held : ν) (rest : List (κ × ν)),
      List.lookup other ((known, held) :: rest) = if other = known then some held else rest.lookup other := by
    intro known held rest
    by_cases same : other = known
    · simp [same]
    · simp [List.lookup_cons, same, beq_false_of_ne same]
  induction entries with
  | nil => exact first key value []
  | cons entry rest ih =>
    obtain ⟨known, held⟩ := entry
    rw [insertEntry]
    split
    next here => rw [first, first, here]; split <;> rfl
    next apart =>
      rw [first, first, ih]
      by_cases same : other = known
      · rw [if_pos same, if_pos same, if_neg (same ▸ apart)]
      · rw [if_neg same, if_neg same]

theorem mem_insertEntry_self (key : κ) (value : ν) (entries : List (κ × ν)) :
    (key, value) ∈ insertEntry key value entries := by
  induction entries with
  | nil => exact List.mem_cons_self
  | cons entry rest ih =>
    rw [insertEntry]
    split
    · exact List.mem_cons_self
    · exact List.mem_cons_of_mem _ ih

namespace Keyed

variable {table : Keyed κ ν}

theorem get?_insert (table : Keyed κ ν) (key other : κ) (value : ν) :
    (table.insert key value).get? other = if other = key then some value else table.get? other :=
  lookup_insertEntry key other value table.entries

theorem get?_erase (table : Keyed κ ν) (key other : κ) :
    (table.erase key).get? other = if other = key then none else table.get? other := by
  rw [erase, get?, get?]
  dsimp only
  induction table.entries with
  | nil => simp
  | cons entry rest ih =>
    obtain ⟨known, held⟩ := entry
    by_cases here : known = key
    · rw [List.filter_cons_of_neg (by simpa using here), ih, here]
      split
      next => rfl
      next apart => rw [List.lookup_cons, beq_false_of_ne apart]
    · rw [List.filter_cons_of_pos (by simpa using here), List.lookup_cons, List.lookup_cons, ih]
      by_cases same : other = known
      · subst same
        rw [beq_self_eq_true, if_neg here, if_neg here]
      · rw [beq_false_of_ne same]

omit [DecidableEq κ] in
theorem eq_of_mem {key : κ} {first second : ν} (one : (key, first) ∈ table.entries)
    (other : (key, second) ∈ table.entries) : first = second := by
  have same := List.inj_on_of_nodup_map table.distinct one other rfl
  exact (Prod.mk.inj same).2

theorem get?_of_mem {key : κ} {value : ν} (member : (key, value) ∈ table.entries) : table.get? key = some value := by
  obtain ⟨before, after, split⟩ := List.append_of_mem member
  refine List.lookup_eq_some_iff.mpr ⟨before, after, split, fun entry early => ?_⟩
  have distinct := table.distinct
  rw [split, List.map_append, List.map_cons, List.nodup_append] at distinct
  have apart := distinct.2.2 entry.1 (List.mem_map_of_mem early) key List.mem_cons_self
  simpa using Ne.symm apart

theorem mem_of_get? {key : κ} {value : ν} (found : table.get? key = some value) : (key, value) ∈ table.entries := by
  obtain ⟨before, after, split, _⟩ := List.lookup_eq_some_iff.mp found
  exact split ▸ List.mem_append_right _ List.mem_cons_self

theorem get?_isSome {key : κ} : (table.get? key).isSome = true ↔ key ∈ table.entries.map Prod.fst := by
  rw [Option.isSome_iff_exists, List.mem_map]
  constructor
  · rintro ⟨value, found⟩
    exact ⟨(key, value), mem_of_get? found, rfl⟩
  · rintro ⟨⟨_, value⟩, member, rfl⟩
    exact ⟨value, get?_of_mem member⟩

theorem gathers_entries (table : Keyed κ ν) : Gathers table.entries table.entries where
  keys := (eraseDups_of_nodup table.distinct).symm
  values key value member := by
    obtain ⟨before, after, split⟩ := List.append_of_mem member
    refine ⟨before, after, split, fun later => ?_⟩
    have distinct := table.distinct
    rw [split, List.map_append, List.map_cons, List.nodup_append, List.nodup_cons] at distinct
    exact distinct.2.1.1 later

/-- One more entry in the stream is one more entry in the table. -/
theorem gathers_insert {stream : List (κ × ν)} (gathers : Gathers stream table.entries) (key : κ) (value : ν) :
    Gathers (stream ++ [(key, value)]) (table.insert key value).entries where
  keys := by
    have known : key ∈ table.entries.map Prod.fst ↔ key ∈ stream.map Prod.fst := by
      rw [gathers.keys, List.mem_eraseDups]
    rw [List.map_append, List.map_singleton, eraseDups_concat, ← gathers.keys]
    simp only [← known]
    exact keys_insertEntry key value table.entries
  values other found member := by
    by_cases same : other = key
    · subst same
      have last : found = value := eq_of_mem member (mem_insertEntry_self other value table.entries)
      exact ⟨stream, [], by rw [last], by simp⟩
    · have old : (other, found) ∈ table.entries :=
        (mem_insertEntry member).resolve_left fun new => same (Prod.mk.inj new).1
      obtain ⟨before, after, rfl, later⟩ := gathers.values other found old
      refine ⟨before, after ++ [(key, value)], by simp, ?_⟩
      rw [List.map_append, List.mem_append, not_or]
      exact ⟨later, by simpa using same⟩

theorem gathers_ofList (stream : List (κ × ν)) : Gathers stream (ofList stream).entries := by
  induction stream using List.reverseRecOn with
  | nil => exact ⟨rfl, by simp [ofList, EmptyCollection.emptyCollection, empty]⟩
  | append_singleton stream entry ih =>
    have written : ofList (stream ++ [entry]) = (ofList stream).insert entry.1 entry.2 := List.foldl_concat ..
    rw [written]
    exact gathers_insert ih entry.1 entry.2

/-- A stream leaves one table behind. -/
theorem gathers_iff {stream : List (κ × ν)} : Gathers stream table.entries ↔ table = ofList stream := by
  constructor
  · intro gathers
    have other := gathers_ofList stream
    exact ext (gathers.unique other)
  · rintro rfl
    exact gathers_ofList stream

end Keyed
end Pagewright
