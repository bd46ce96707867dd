import LSystem.Symbol.Word

/-! Tables keyed by symbols.

A table is its entries in the order of their keys, each key once. Inserting under a key replaces what
was there, so of several insertions under one key the last is found (`find?_insert`), and the order
in which different keys were inserted leaves no trace. -/
namespace LSystem

/-- Entries in strictly rising order of their keys. -/
structure Table (α : Type) where
  entries : List (Symbol × α)
  sorted : entries.Pairwise (·.1 < ·.1)

namespace Table
variable {α : Type}

/-- The table without entries. -/
def empty : Table α := ⟨[], .nil⟩

instance : Inhabited (Table α) := ⟨empty⟩

/-- Puts an entry into its place among sorted ones. -/
def insertEntry (key : Symbol) (value : α) : List (Symbol × α) → List (Symbol × α)
  | [] => [(key, value)]
  | entry :: rest =>
    if key < entry.1 then (key, value) :: entry :: rest
    else if entry.1 < key then entry :: insertEntry key value rest
    else (key, value) :: rest

theorem mem_insertEntry {key : Symbol} {value : α} {entries : List (Symbol × α)}
    {entry : Symbol × α} (h : entry ∈ insertEntry key value entries) :
    entry = (key, value) ∨ entry ∈ entries := by
  induction entries with
  | nil => simpa [insertEntry] using h
  | cons first rest ih =>
    simp only [insertEntry] at h
    split at h
    · simpa using h
    · split at h
      · rcases List.mem_cons.mp h with h | h
        · exact .inr (h ▸ List.mem_cons_self ..)
        · exact (ih h).imp_right (List.mem_cons_of_mem _)
      · rcases List.mem_cons.mp h with h | h
        · exact .inl h
        · exact .inr (List.mem_cons_of_mem _ h)

theorem eq_of_not_lt {a b : Symbol} (h : ¬a < b) (h' : ¬b < a) : a = b :=
  Char.le_antisymm (Char.not_lt.mp h') (Char.not_lt.mp h)

theorem sorted_insertEntry (key : Symbol) (value : α) {entries : List (Symbol × α)}
    (h : entries.Pairwise (·.1 < ·.1)) : (insertEntry key value entries).Pairwise (·.1 < ·.1) := by
  induction entries with
  | nil => simp [insertEntry]
  | cons entry rest ih =>
    obtain ⟨hfirst, hrest⟩ := List.pairwise_cons.mp h
    simp only [insertEntry]
    split
    · rename_i hlt
      refine List.pairwise_cons.mpr ⟨fun other hmem => ?_, h⟩
      rcases List.mem_cons.mp hmem with rfl | hmem
      · exact hlt
      · exact Char.lt_trans hlt (hfirst other hmem)
    · rename_i hge
      split
      · rename_i hlt
        refine List.pairwise_cons.mpr ⟨fun other hmem => ?_, ih hrest⟩
        rcases mem_insertEntry hmem with rfl | hmem
        · exact hlt
        · exact hfirst other hmem
      · rename_i hle
        have heq : entry.1 = key := eq_of_not_lt hle hge
        exact List.pairwise_cons.mpr ⟨fun other hmem => heq ▸ hfirst other hmem, hrest⟩

/-- The table with a value under a key, whatever was there. -/
def insert (table : Table α) (key : Symbol) (value : α) : Table α :=
  ⟨insertEntry key value table.entries, sorted_insertEntry key value table.sorted⟩

/-- The value under a key. -/
def find? (table : Table α) (key : Symbol) : Option α :=
  (table.entries.find? fun entry => entry.1 = key).map (·.2)

/-- Whether there is a value under a key. -/
def contains (table : Table α) (key : Symbol) : Bool := (table.find? key).isSome

/-- The keys in rising order. -/
def keys (table : Table α) : List Symbol := table.entries.map (·.1)

/-- The table of a list of entries, the later ones of a key replacing the earlier. -/
def ofList (entries : List (Symbol × α)) : Table α :=
  entries.foldl (fun table entry => table.insert entry.1 entry.2) empty

theorem find?_empty (key : Symbol) : (empty : Table α).find? key = none := rfl

/-- The last insertion under a key is found. -/
theorem find?_insert (table : Table α) (key : Symbol) (value : α) (query : Symbol) :
    (table.insert key value).find? query = if key = query then some value else table.find? query := by
  obtain ⟨entries, hsorted⟩ := table
  simp only [find?, insert]
  induction entries with
  | nil => simp only [insertEntry, List.find?_cons]; split <;> simp_all
  | cons entry rest ih =>
    obtain ⟨hfirst, hrest⟩ := List.pairwise_cons.mp hsorted
    simp only [insertEntry]
    split
    · simp only [List.find?_cons]
      by_cases hk : key = query <;> simp [hk]
    · rename_i hge
      split
      · rename_i hlt
        simp only [List.find?_cons]
        by_cases he : entry.1 = query
        · have : key ≠ query := fun h => Char.lt_irrefl query (by
            rw [he, h] at hlt
            exact hlt)
          simp [he, this]
        · simpa [he] using ih hrest
      · rename_i hle
        have heq : entry.1 = key := eq_of_not_lt hle hge
        simp only [List.find?_cons, heq]
        by_cases hk : key = query <;> simp [hk]

end Table

end LSystem
