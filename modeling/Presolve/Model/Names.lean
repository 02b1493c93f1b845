import Presolve.Id
import Std.Data.TreeMap

/-!
# Name Tables

Entries of a registry may be given names. A later name replaces an earlier one,
and nothing keeps two entries from having the same name, so looking an entry up
by its name means finding the first one in the order of ids.

## Main definitions

* `NameTable`: Names by id.
* `NameTable.name?`: The name of an entry.
* `NameTable.first?`: The least id that has a name.
* `NameTable.assign`: Give an entry a name.
-/

namespace Presolve

/-- The names given to entries of the registry `r`. -/
structure NameTable (r : Registry) where
  entries : Std.TreeMap (Id r) String := {}

namespace NameTable

variable {r : Registry}

/-- No entry has a name. -/
def empty : NameTable r := {}

/-- The name of an entry, if it has one. -/
def name? (t : NameTable r) (id : Id r) : Option String := t.entries[id]?

/-- The least id whose name is `name`. -/
def first? (t : NameTable r) (name : String) : Option (Id r) :=
  (t.entries.toList.find? (·.2 == name)).map (·.1)

/-- Give an entry a name in place of any earlier one. -/
def assign (t : NameTable r) (id : Id r) (name : String) : NameTable r :=
  ⟨t.entries.insert id name⟩

end NameTable

end Presolve
