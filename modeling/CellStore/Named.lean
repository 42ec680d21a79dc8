import CellStore.Bytes

namespace CellStore

abbrev Named := List (String × Bytes)

namespace Named

def insert (name : String) (value : Bytes) : Named → Named
  | [] => [(name, value)]
  | (n, v) :: entries =>
    if name = n then (name, value) :: entries
    else if name < n then (name, value) :: (n, v) :: entries
    else (n, v) :: insert name value entries

/-- Of entries with one name, the last counts. -/
def ofList (entries : List (String × Bytes)) : Named :=
  entries.foldl (fun sorted (name, value) => insert name value sorted) []

theorem lookup_cons_eq (name other : String) (value : Bytes) (entries : Named) :
    List.lookup other ((name, value) :: entries)
      = if other = name then some value else List.lookup other entries := by
  by_cases h : other = name
  · simp [h]
  · simp [List.lookup_cons, beq_false_of_ne h, h]

theorem lookup_insert (name other : String) (value : Bytes) (entries : Named) :
    List.lookup other (insert name value entries)
      = if other = name then some value else List.lookup other entries := by
  induction entries with
  | nil => exact lookup_cons_eq ..
  | cons entry entries ih =>
    obtain ⟨n, v⟩ := entry
    simp only [insert]
    split
    · rename_i same
      subst same
      simp only [lookup_cons_eq]
      split <;> rfl
    · rename_i differs
      split
      · exact lookup_cons_eq ..
      · simp only [lookup_cons_eq, ih]
        split
        · rename_i found
          subst found
          rw [if_neg fun h => differs h.symm]
        · rfl

end Named

end CellStore
