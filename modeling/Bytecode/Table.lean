/-! Tables from names to values: one entry for each name, in the order in which the names arrived. -/

namespace Bytecode

/-- A table from names to values. -/
structure Table (α : Type) where
  entries : List (String × α) := []

namespace Table

variable {α : Type}

/-- The value of the first entry of a name. -/
def getEntry? (name : String) : List (String × α) → Option α
  | [] => none
  | (other, value) :: rest => if other = name then some value else getEntry? name rest

/-- The value of a name, if the table has one. -/
def get? (t : Table α) (name : String) : Option α :=
  getEntry? name t.entries

/-- Replaces the value of the first entry of a name, and adds an entry at the end if there is none. -/
def putEntry (name : String) (value : α) : List (String × α) → List (String × α)
  | [] => [(name, value)]
  | (other, old) :: rest =>
    if other = name then (name, value) :: rest else (other, old) :: putEntry name value rest

/-- The table with the value of one name set, whether the name was there or not. -/
def put (t : Table α) (name : String) (value : α) : Table α :=
  ⟨putEntry name value t.entries⟩

theorem getEntry?_putEntry (name other : String) (value : α) (entries : List (String × α)) :
    getEntry? other (putEntry name value entries) = if other = name then some value else getEntry? other entries := by
  induction entries with
  | nil => grind [putEntry, getEntry?]
  | cons e rest ih =>
    obtain ⟨key, old⟩ := e
    grind [putEntry, getEntry?]

/-- A name that was set has the new value, and every other name the value it had. -/
theorem get?_put (t : Table α) (name other : String) (value : α) :
    (t.put name value).get? other = if other = name then some value else t.get? other :=
  getEntry?_putEntry name other value t.entries

@[simp] theorem get?_put_self (t : Table α) (name : String) (value : α) :
    (t.put name value).get? name = some value := by
  simp [get?_put]

theorem get?_put_of_ne {name other : String} (h : other ≠ name) (t : Table α) (value : α) :
    (t.put name value).get? other = t.get? other := by
  simp [get?_put, h]

end Table

end Bytecode
