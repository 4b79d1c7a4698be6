/-! Tables: finite maps as lists of pairs in the order of their keys. -/

namespace StackBounds

/-- A finite map. The entries stand in ascending order of their keys, one for each key. -/
@[ext]
structure Table (κ ν : Type) [Ord κ] where
  entries : List (κ × ν)
  ascending : entries.Pairwise fun first second => compare first.1 second.1 = .lt
  deriving DecidableEq, Repr

namespace Table

variable {κ ν ω : Type} [Ord κ]

-----------------------------------------------------------------------------------------
-- Ascending lists
-----------------------------------------------------------------------------------------

/-- Whether a list is ascending depends on its keys only. -/
theorem ascending_of_keys {entries : List (κ × ν)} {others : List (κ × ω)}
    (kept : others.map (·.1) = entries.map (·.1))
    (ascending : entries.Pairwise fun first second => compare first.1 second.1 = .lt)
    : others.Pairwise fun first second => compare first.1 second.1 = .lt := by
  have keys : (entries.map (·.1)).Pairwise fun first second => compare first second = .lt :=
    List.pairwise_map.mpr ascending
  rw [← kept] at keys
  exact List.pairwise_map.mp keys

/-- Puts a pair in front of the first greater key, in place of an equal one. -/
def insertEntry (key : κ) (value : ν) : List (κ × ν) → List (κ × ν)
  | [] => [(key, value)]
  | entry :: rest =>
    match compare key entry.1 with
    | .lt => (key, value) :: entry :: rest
    | .eq => (key, value) :: rest
    | .gt => entry :: insertEntry key value rest

theorem mem_of_mem_insertEntry {key : κ} {value : ν} {entries : List (κ × ν)} {entry : κ × ν}
    (member : entry ∈ insertEntry key value entries)
    : entry = (key, value) ∨ entry ∈ entries := by
  induction entries with
  | nil => exact Or.inl (List.mem_singleton.mp member)
  | cons first rest ih =>
      rw [insertEntry] at member
      split at member
      · exact List.mem_cons.mp member
      · rcases List.mem_cons.mp member with here | later
        · exact Or.inl here
        · exact Or.inr (List.mem_cons_of_mem _ later)
      · rcases List.mem_cons.mp member with here | later
        · exact Or.inr (here ▸ List.mem_cons_self)
        · exact (ih later).imp_right (List.mem_cons_of_mem _)

/-- Insertion keeps the keys in ascending order. -/
theorem ascending_insertEntry [Std.TransOrd κ] (key : κ) (value : ν) {entries : List (κ × ν)}
    (ascending : entries.Pairwise fun first second => compare first.1 second.1 = .lt)
    : (insertEntry key value entries).Pairwise
        fun first second => compare first.1 second.1 = .lt := by
  induction entries with
  | nil => exact List.pairwise_singleton _ _
  | cons entry rest ih =>
      obtain ⟨head, tail⟩ := List.pairwise_cons.mp ascending
      rw [insertEntry]
      split
      · rename_i before
        refine List.pairwise_cons.mpr ⟨fun other member => ?_, ascending⟩
        rcases List.mem_cons.mp member with rfl | later
        · exact before
        · exact Std.TransCmp.lt_trans before (head other later)
      · rename_i equal
        refine List.pairwise_cons.mpr ⟨fun other member => ?_, tail⟩
        exact Std.TransCmp.lt_of_eq_of_lt equal (head other member)
      · rename_i after
        refine List.pairwise_cons.mpr ⟨fun other member => ?_, ih tail⟩
        rcases mem_of_mem_insertEntry member with rfl | later
        · exact Std.OrientedCmp.lt_of_gt after
        · exact head other later

/-- Changes the value of the first pair with a key. -/
def modifyEntry [DecidableEq κ] (key : κ) (change : ν → ν) : List (κ × ν) → List (κ × ν)
  | [] => []
  | entry :: rest =>
    if entry.1 = key then (entry.1, change entry.2) :: rest
    else entry :: modifyEntry key change rest

omit [Ord κ] in
theorem keys_modifyEntry [DecidableEq κ] (key : κ) (change : ν → ν) (entries : List (κ × ν))
    : (modifyEntry key change entries).map (·.1) = entries.map (·.1) := by
  induction entries with
  | nil => rfl
  | cons entry rest ih =>
      rw [modifyEntry]
      split
      · rfl
      · rw [List.map_cons, List.map_cons, ih]

-----------------------------------------------------------------------------------------
-- Operations
-----------------------------------------------------------------------------------------

/-- The table without entries. -/
def empty : Table κ ν := ⟨[], .nil⟩

/-- The table with a key set to a value. -/
def insert [Std.TransOrd κ] (table : Table κ ν) (key : κ) (value : ν) : Table κ ν :=
  ⟨insertEntry key value table.entries, ascending_insertEntry key value table.ascending⟩

/-- The table that a list of pairs is inserted into, pair by pair. -/
def ofList [Std.TransOrd κ] (entries : List (κ × ν)) : Table κ ν :=
  entries.foldl (fun table entry => table.insert entry.1 entry.2) empty

/-- The value of a key. -/
def get? [DecidableEq κ] (table : Table κ ν) (key : κ) : Option ν :=
  (table.entries.find? fun entry => decide (entry.1 = key)).map (·.2)

/-- The keys, in ascending order. -/
def keys (table : Table κ ν) : List κ := table.entries.map (·.1)

/-- The number of entries. -/
def size (table : Table κ ν) : Nat := table.entries.length

/-- Changes the value of a key, if it has one. -/
def modify [DecidableEq κ] (table : Table κ ν) (key : κ) (change : ν → ν) : Table κ ν :=
  ⟨modifyEntry key change table.entries,
    ascending_of_keys (keys_modifyEntry key change table.entries) table.ascending⟩

/-- The table with every value replaced, depending on its key. -/
def mapWithKey (change : κ → ν → ω) (table : Table κ ν) : Table κ ω :=
  ⟨table.entries.map fun entry => (entry.1, change entry.1 entry.2),
    ascending_of_keys (by rw [List.map_map]; rfl) table.ascending⟩

/-- The sum of a weight over all values. -/
def total (weight : ν → Nat) (table : Table κ ν) : Nat :=
  table.entries.foldr (fun entry sum => weight entry.2 + sum) 0

-----------------------------------------------------------------------------------------
-- Reading after writing
-----------------------------------------------------------------------------------------

/-- An inserted key is found with its new value. -/
theorem get?_insert_self [Std.TransOrd κ] [DecidableEq κ] (table : Table κ ν) (key : κ) (value : ν)
    : (table.insert key value).get? key = some value := by
  simp only [insert, get?]
  induction table.entries with
  | nil => simp [insertEntry]
  | cons entry rest ih =>
      rw [insertEntry]
      split
      · simp
      · simp
      · rename_i after
        have differ : entry.1 ≠ key := by
          rintro rfl
          have equal : compare entry.1 entry.1 = .eq := Std.ReflCmp.compare_self
          cases equal.symm.trans after
        simpa [differ] using ih

/-- An insertion changes nothing for other keys. -/
theorem get?_insert_of_ne [Std.TransOrd κ] [Std.LawfulEqOrd κ] [DecidableEq κ] (table : Table κ ν)
    {key other : κ} (differ : other ≠ key) (value : ν)
    : (table.insert key value).get? other = table.get? other := by
  simp only [insert, get?]
  induction table.entries with
  | nil => simp [insertEntry, differ.symm]
  | cons entry rest ih =>
      rw [insertEntry]
      split
      · simp [differ.symm]
      · rename_i equal
        have same : key = entry.1 := Std.LawfulEqOrd.eq_of_compare equal
        simp [← same, differ.symm]
      · by_cases here : entry.1 = other
        · simp [here]
        · simpa [here] using ih

/-- Changing a key changes what is found under it. -/
theorem get?_modify_self [DecidableEq κ] (table : Table κ ν) (key : κ) (change : ν → ν)
    : (table.modify key change).get? key = (table.get? key).map change := by
  simp only [modify, get?]
  induction table.entries with
  | nil => rfl
  | cons entry rest ih =>
      by_cases h : entry.1 = key
      · simp [modifyEntry, h]
      · simpa [modifyEntry, h] using ih

/-- Changing a key exchanges its weight in the sum. -/
theorem total_modify [DecidableEq κ] (weight : ν → Nat) {table : Table κ ν} {key : κ} {value : ν}
    (found : table.get? key = some value) (change : ν → ν)
    : (table.modify key change).total weight + weight value
      = table.total weight + weight (change value) := by
  simp only [modify, get?, total] at found ⊢
  generalize table.entries = entries at found ⊢
  induction entries with
  | nil => simp at found
  | cons entry rest ih =>
      by_cases h : entry.1 = key
      · simp only [List.find?_cons, h, decide_true, Option.map_some, Option.some.injEq] at found
        simp only [modifyEntry, h, ↓reduceIte, List.foldr_cons, found]
        omega
      · simp only [List.find?_cons, h, decide_false] at found
        have later := ih found
        simp only [modifyEntry, h, ↓reduceIte, List.foldr_cons]
        omega

end Table

end StackBounds
