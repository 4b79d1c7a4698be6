import Mathlib.Data.List.Forall2
import StackBounds.Table

/-! Tables as finite maps: what look-ups find, and tables that agree on their keys and relate
their values.
-/

namespace StackBounds

section Pairs

variable {κ ν : Type} [DecidableEq κ] {entries : List (κ × ν)} {key : κ} {value : ν}

/-- The first pair with a key is one of the pairs. -/
theorem mem_of_find?_key
    (found : (entries.find? fun entry => decide (entry.1 = key)).map (·.2) = some value)
    : (key, value) ∈ entries := by
  obtain ⟨entry, hentry, same⟩ := Option.map_eq_some_iff.mp found
  have keyEq : entry.1 = key := by simpa using List.find?_some hentry
  have member := List.mem_of_find?_eq_some hentry
  rwa [← keyEq, ← same]

/-- Where no key stands twice, every pair is found. -/
theorem find?_key_of_mem (distinct : (entries.map (·.1)).Nodup) (member : (key, value) ∈ entries)
    : (entries.find? fun entry => decide (entry.1 = key)).map (·.2) = some value := by
  induction entries with
  | nil => simp at member
  | cons entry rest ih =>
      rw [List.map_cons, List.nodup_cons] at distinct
      rcases List.mem_cons.mp member with rfl | later
      · simp
      · have other : entry.1 ≠ key := by
          intro same
          exact distinct.1 (List.mem_map.mpr ⟨(key, value), later, same.symm⟩)
        simpa [other] using ih distinct.2 later

end Pairs

namespace Table

variable {κ ν ω χ : Type} [Ord κ]

theorem keys_ascending (table : Table κ ν)
    : table.keys.Pairwise fun first second => compare first second = .lt :=
  List.pairwise_map.mpr table.ascending

/-- A table has no key twice. -/
theorem keys_nodup [Std.TransOrd κ] (table : Table κ ν) : table.keys.Nodup := by
  refine table.keys_ascending.imp fun {first second} less same => ?_
  have equal : compare second second = .eq := Std.ReflCmp.compare_self
  rw [same, equal] at less
  cases less

section Lookup

variable [DecidableEq κ]

theorem mem_of_get? {table : Table κ ν} {key : κ} {value : ν}
    (found : table.get? key = some value)
    : (key, value) ∈ table.entries :=
  mem_of_find?_key found

theorem get?_of_mem [Std.TransOrd κ] {table : Table κ ν} {key : κ} {value : ν}
    (member : (key, value) ∈ table.entries)
    : table.get? key = some value :=
  find?_key_of_mem table.keys_nodup member

theorem mem_keys_of_get? {table : Table κ ν} {key : κ} {value : ν}
    (found : table.get? key = some value)
    : key ∈ table.keys :=
  List.mem_map.mpr ⟨(key, value), mem_of_get? found, rfl⟩

theorem get?_modify_of_ne (table : Table κ ν) {key other : κ} (differ : other ≠ key)
    (change : ν → ν)
    : (table.modify key change).get? other = table.get? other := by
  simp only [modify, get?]
  induction table.entries with
  | nil => rfl
  | cons entry rest ih =>
      by_cases h : entry.1 = key
      · simp [modifyEntry, h, differ.symm]
      · simp only [modifyEntry, h, ↓reduceIte]
        by_cases hother : entry.1 = other
        · simp [hother]
        · simpa [hother] using ih

end Lookup

theorem keys_mapWithKey (change : κ → ν → ω) (table : Table κ ν)
    : (table.mapWithKey change).keys = table.keys := by
  simp [mapWithKey, keys]

theorem get?_mapWithKey [DecidableEq κ] (change : κ → ν → ω) (table : Table κ ν) (key : κ)
    : (table.mapWithKey change).get? key = (table.get? key).map (change key) := by
  simp only [mapWithKey, get?]
  induction table.entries with
  | nil => rfl
  | cons entry rest ih =>
      by_cases h : entry.1 = key
      · simp [h]
      · simpa [h] using ih

section Insertion

variable [Std.TransOrd κ]

/-- Changing values before they are inserted is changing them afterwards. -/
theorem insert_mapWithKey (change : ν → ω) (table : Table κ ν) (key : κ) (value : ν)
    : (table.mapWithKey fun _ => change).insert key (change value)
      = (table.insert key value).mapWithKey fun _ => change := by
  simp only [insert, mapWithKey, mk.injEq]
  induction table.entries with
  | nil => rfl
  | cons entry rest ih =>
      rw [List.map_cons, insertEntry, insertEntry]
      cases compare key entry.1 with
      | lt => rfl
      | eq => rfl
      | gt => simp only [ih, List.map_cons]

theorem ofList_map (change : ν → ω) (entries : List (κ × ν))
    : ofList (entries.map fun entry => (entry.1, change entry.2))
      = (ofList entries).mapWithKey fun _ => change := by
  have inserted (table : Table κ ν)
      : (entries.map fun entry => (entry.1, change entry.2)).foldl
          (fun table entry => table.insert entry.1 entry.2) (table.mapWithKey fun _ => change)
        = (entries.foldl (fun table entry => table.insert entry.1 entry.2) table).mapWithKey
          fun _ => change := by
    induction entries generalizing table with
    | nil => rfl
    | cons entry rest ih =>
        simp only [List.map_cons, List.foldl_cons, insert_mapWithKey]
        exact ih (table.insert entry.1 entry.2)
  exact inserted empty

/-- A key behind all others is inserted at the end. -/
theorem insertEntry_of_last {key : κ} {value : ν} {entries : List (κ × ν)}
    (last : ∀ entry ∈ entries, compare entry.1 key = .lt)
    : insertEntry key value entries = entries ++ [(key, value)] := by
  induction entries with
  | nil => rfl
  | cons entry rest ih =>
      have after : compare key entry.1 = .gt :=
        Std.OrientedCmp.gt_of_lt (last entry List.mem_cons_self)
      rw [insertEntry, after, ih fun other member => last other (List.mem_cons_of_mem _ member)]
      rfl

/-- Inserting pairs in ascending order behind the others appends them. -/
theorem entries_foldl_insert (entries : List (κ × ν)) (table : Table κ ν)
    (ascending : (table.entries ++ entries).Pairwise
      fun first second => compare first.1 second.1 = .lt)
    : (entries.foldl (fun table entry => table.insert entry.1 entry.2) table).entries
      = table.entries ++ entries := by
  induction entries generalizing table with
  | nil => exact (List.append_nil _).symm
  | cons entry rest ih =>
      obtain ⟨_, _, between⟩ := List.pairwise_append.mp ascending
      have appended : (table.insert entry.1 entry.2).entries = table.entries ++ [entry] :=
        insertEntry_of_last fun other member => between other member entry List.mem_cons_self
      rw [List.foldl_cons, ih, appended, List.append_assoc]
      · rfl
      · rwa [appended, List.append_assoc]

/-- A list with ascending keys is the list of entries of its table. -/
theorem entries_ofList {entries : List (κ × ν)}
    (ascending : (entries.map (·.1)).Pairwise fun first second => compare first second = .lt)
    : (ofList entries).entries = entries :=
  entries_foldl_insert entries empty (List.pairwise_map.mp ascending)

theorem ofList_entries (table : Table κ ν) : ofList table.entries = table :=
  Table.ext (entries_ofList table.keys_ascending)

variable [Std.LawfulEqOrd κ]

/-- A new key is added to the others. -/
theorem keys_insert_perm {table : Table κ ν} {key : κ} (value : ν) (fresh : key ∉ table.keys)
    : (table.insert key value).entries.Perm ((key, value) :: table.entries) := by
  simp only [keys, insert] at fresh ⊢
  generalize table.entries = entries at fresh ⊢
  induction entries with
  | nil => exact .refl _
  | cons entry rest ih =>
      rw [List.map_cons, List.mem_cons, not_or] at fresh
      rw [insertEntry]
      split
      · exact .refl _
      · rename_i equal
        exact absurd (Std.LawfulEqOrd.eq_of_compare equal) fresh.1
      · exact ((ih fresh.2).cons entry).trans (.swap _ _ _)

/-- Insertion loses no key. -/
theorem mem_keys_insert {table : Table κ ν} {key other : κ} (value : ν)
    (member : other = key ∨ other ∈ table.keys)
    : other ∈ (table.insert key value).keys := by
  simp only [keys, insert] at member ⊢
  generalize table.entries = entries at member ⊢
  induction entries with
  | nil =>
      rcases member with rfl | nothing
      · exact List.mem_cons_self
      · exact absurd nothing List.not_mem_nil
  | cons entry rest ih =>
      rw [List.map_cons, List.mem_cons] at member
      rw [insertEntry]
      split
      · simpa only [List.map_cons, List.mem_cons] using member
      · rename_i equal
        rw [Std.LawfulEqOrd.eq_of_compare equal] at member ⊢
        rw [List.map_cons, List.mem_cons]
        exact member.elim Or.inl id
      · rw [List.map_cons, List.mem_cons]
        rcases member with same | head | later
        · exact Or.inr (ih (Or.inl same))
        · exact Or.inl head
        · exact Or.inr (ih (Or.inr later))

theorem mem_keys_insert_iff {table : Table κ ν} {key other : κ} {value : ν}
    : other ∈ (table.insert key value).keys ↔ other = key ∨ other ∈ table.keys := by
  refine ⟨fun member => ?_, mem_keys_insert value⟩
  obtain ⟨entry, inside, rfl⟩ := List.mem_map.mp member
  rcases mem_of_mem_insertEntry inside with rfl | old
  · exact Or.inl rfl
  · exact Or.inr (List.mem_map_of_mem old)

/-- Inserting pairs with different new keys adds exactly these pairs. -/
theorem foldl_insert_perm (entries : List (κ × ν)) (table : Table κ ν)
    (distinct : (entries.map (·.1)).Nodup) (fresh : ∀ entry ∈ entries, entry.1 ∉ table.keys)
    : (entries.foldl (fun table entry => table.insert entry.1 entry.2) table).entries.Perm
        (entries ++ table.entries) := by
  induction entries generalizing table with
  | nil => exact .refl _
  | cons entry rest ih =>
      rw [List.map_cons, List.nodup_cons] at distinct
      have added := keys_insert_perm entry.2 (fresh entry List.mem_cons_self)
      have keysAdded := added.map (·.1)
      refine (ih (table.insert entry.1 entry.2) distinct.2 ?_).trans ?_
      · intro other member inside
        have either := keysAdded.mem_iff.mp inside
        rcases List.mem_cons.mp either with same | earlier
        · exact distinct.1 (List.mem_map.mpr ⟨other, member, same⟩)
        · exact fresh other (List.mem_cons_of_mem _ member) earlier
      · exact (added.append_left rest).trans List.perm_middle

theorem ofList_perm {entries : List (κ × ν)} (distinct : (entries.map (·.1)).Nodup)
    : (ofList entries).entries.Perm entries := by
  have added := foldl_insert_perm entries (empty : Table κ ν) distinct (by simp [empty, keys])
  rwa [empty, List.append_nil] at added

theorem get?_ofList [DecidableEq κ] {entries : List (κ × ν)}
    (distinct : (entries.map (·.1)).Nodup) {key : κ} {value : ν}
    : (ofList entries).get? key = some value ↔ (key, value) ∈ entries := by
  constructor
  · intro found
    exact (ofList_perm distinct).mem_iff.mp (mem_of_get? found)
  · intro member
    exact get?_of_mem ((ofList_perm distinct).mem_iff.mpr member)

end Insertion

-----------------------------------------------------------------------------------------
-- Related tables
-----------------------------------------------------------------------------------------

/-- The tables have the same keys in the same order, with related values. -/
def Related (relation : ν → ω → Prop) (first : Table κ ν) (second : Table κ ω) : Prop :=
  List.Forall₂ (fun x y => x.1 = y.1 ∧ relation x.2 y.2) first.entries second.entries

namespace Related

theorem refl {relation : ν → ν → Prop} (reflexive : ∀ value, relation value value)
    (table : Table κ ν)
    : table.Related relation table :=
  List.forall₂_same.mpr fun entry _ => ⟨rfl, reflexive entry.2⟩

theorem trans {first : ν → ω → Prop} {second : ω → χ → Prop} {both : ν → χ → Prop}
    (compose : ∀ x y z, first x y → second y z → both x z) {lower : Table κ ν}
    {middle : Table κ ω} {upper : Table κ χ} (below : lower.Related first middle)
    (above : middle.Related second upper)
    : lower.Related both upper := by
  simp only [Related] at below above ⊢
  generalize lower.entries = lowers, middle.entries = middles, upper.entries = uppers
    at below above ⊢
  induction below generalizing uppers with
  | nil =>
      cases above
      exact .nil
  | cons head tail ih =>
      cases above with
      | cons next rest =>
          exact .cons ⟨head.1.trans next.1, compose _ _ _ head.2 next.2⟩ (ih _ rest)

theorem keys_eq {relation : ν → ω → Prop} {first : Table κ ν} {second : Table κ ω}
    (related : first.Related relation second)
    : second.keys = first.keys := by
  simp only [Related, keys] at related ⊢
  generalize first.entries = firsts, second.entries = seconds at related ⊢
  induction related with
  | nil => rfl
  | cons head _ ih => rw [List.map_cons, List.map_cons, ih, head.1]

variable [DecidableEq κ]

/-- Related tables find related values. -/
theorem get?_some {relation : ν → ω → Prop} {first : Table κ ν} {second : Table κ ω}
    (related : first.Related relation second) {key : κ} {value : ν}
    (found : first.get? key = some value)
    : ∃ other, second.get? key = some other ∧ relation value other := by
  simp only [Related, get?] at related found ⊢
  generalize first.entries = firsts, second.entries = seconds at related found ⊢
  induction related with
  | nil => simp at found
  | @cons x y _ _ head _ ih =>
      by_cases h : x.1 = key
      · have same : x.2 = value := by simpa [h] using found
        exact ⟨y.2, by simp [← head.1, h], same ▸ head.2⟩
      · simpa [← head.1, h] using ih (by simpa [h] using found)

theorem get?_none {relation : ν → ω → Prop} {first : Table κ ν} {second : Table κ ω}
    (related : first.Related relation second) {key : κ} (missing : first.get? key = none)
    : second.get? key = none := by
  simp only [Related, get?] at related missing ⊢
  generalize first.entries = firsts, second.entries = seconds at related missing ⊢
  induction related with
  | nil => rfl
  | @cons x y _ _ head _ ih =>
      by_cases h : x.1 = key
      · simp [h] at missing
      · simpa [← head.1, h] using ih (by simpa [h] using missing)

/-- Changing the value of one key to a related one relates the tables. -/
theorem modify {relation : ν → ν → Prop} (reflexive : ∀ value, relation value value)
    {table : Table κ ν} {key : κ} {change : ν → ν}
    (changed : ∀ value, table.get? key = some value → relation value (change value))
    : table.Related relation (table.modify key change) := by
  simp only [Related, get?, Table.modify] at changed ⊢
  generalize table.entries = entries at changed ⊢
  induction entries with
  | nil => exact .nil
  | cons entry rest ih =>
      by_cases h : entry.1 = key
      · simp only [modifyEntry, h, ↓reduceIte]
        refine .cons ⟨h, changed entry.2 (by simp [h])⟩ ?_
        exact List.forall₂_same.mpr fun later _ => ⟨rfl, reflexive later.2⟩
      · simp only [modifyEntry, h, ↓reduceIte]
        refine .cons ⟨rfl, reflexive entry.2⟩ (ih fun value found => ?_)
        exact changed value (by simpa [h] using found)

end Related

end Table

end StackBounds
