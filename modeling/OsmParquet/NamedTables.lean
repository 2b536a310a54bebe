import OsmParquet.KeyedList

/-!
The tables of a database, under names that it compares in a folded form.

A table keeps the spelling it was made with. A table that is made takes the place of one whose name
folds to the same, whatever its spelling, and a query finds a table by the folded name; the listing
of the tables goes by the spelling.
-/

namespace OsmParquet.NamedTables

open OsmParquet.KeyedList

variable {ν κ β : Type} [DecidableEq κ] {fold : ν → κ}

structure Table (ν β : Type) where
  name : ν
  content : β

def Table.folded (fold : ν → κ) (t : Table ν β) : κ := fold t.name

/-- No two tables have names that fold to the same. -/
structure Catalog (fold : ν → κ) (β : Type) where
  tables : List (Table ν β)
  once : Distinct (Table.folded fold) tables

namespace Catalog

def empty : Catalog fold β := ⟨[], distinct_nil⟩

variable (c : Catalog fold β)

/-- The table whose name folds to `k`. -/
def find (k : κ) : Option (Table ν β) := lookup (Table.folded fold) k c.tables

/-- What a query finds under a name. -/
def select (n : ν) : Option β := (c.find (fold n)).map Table.content

/-- The listing has the very name. -/
def lists [DecidableEq ν] (n : ν) : Bool := c.tables.any fun t => t.name = n

def names : List ν := c.tables.map Table.name

/-- `CREATE OR REPLACE TABLE`. -/
def replace (n : ν) (x : β) : Catalog fold β where
  tables := ⟨n, x⟩ :: without (Table.folded fold) [fold n] c.tables
  once := List.nodup_cons.mpr ⟨fun h => (mem_map_without.mp h).2 (by simp [Table.folded]),
    c.once.without _⟩

/-- Several tables, one after the other. -/
def replaceAll (ts : List (Table ν β)) : Catalog fold β :=
  ts.foldl (fun c t => c.replace t.name t.content) c

variable {c} {k : κ} {n m : ν} {x : β}

@[simp] lemma find_empty : (empty : Catalog fold β).find k = none := rfl

lemma find_replace : (c.replace n x).find k = if fold n = k then some ⟨n, x⟩ else c.find k := by
  rw [find, find, replace, lookup_cons, lookup_without, Table.folded]
  by_cases h : fold n = k
  · rw [if_pos h, if_pos h]
  · rw [if_neg h, if_neg h, if_neg (by simpa using Ne.symm h)]

lemma fold_of_find {t : Table ν β} (h : c.find k = some t) : fold t.name = k := by
  have hk : Table.folded fold t = k := key_of_lookup h
  exact hk

lemma mem_names : n ∈ c.names ↔ ∃ x, c.find (fold n) = some ⟨n, x⟩ := by
  constructor
  · intro h
    obtain ⟨t, ht, rfl⟩ := List.mem_map.mp h
    exact ⟨t.content, c.once.lookup_of_mem ht⟩
  · rintro ⟨x, h⟩
    exact List.mem_map.mpr ⟨_, mem_of_lookup h, rfl⟩

omit [DecidableEq κ] in
lemma lists_iff [DecidableEq ν] : c.lists n = true ↔ n ∈ c.names := by
  simp [lists, names]

/-- What a query finds under the other names stays. -/
lemma select_replace_of_ne (h : fold n ≠ fold m) : (c.replace n x).select m = c.select m := by
  rw [select, find_replace, if_neg h, select]

lemma select_replace_self : (c.replace n x).select n = some x := by
  rw [select, find_replace, if_pos rfl]
  rfl

omit [DecidableEq κ] in
lemma mem_names_of_mem {t : Table ν β} (h : t ∈ c.tables) : t.name ∈ c.names :=
  List.mem_map_of_mem h

lemma mem_replace {t : Table ν β} (h : t ∈ (c.replace n x).tables) : t = ⟨n, x⟩ ∨ t ∈ c.tables :=
  (List.mem_cons.mp h).imp_right List.mem_of_mem_filter

lemma mem_replaceAll {ts : List (Table ν β)} {t : Table ν β} (h : t ∈ (c.replaceAll ts).tables) :
    t ∈ ts ∨ t ∈ c.tables := by
  induction ts generalizing c with
  | nil => exact .inr h
  | cons u ts ih =>
    rcases ih h with hts | hc
    · exact .inl (List.mem_cons_of_mem _ hts)
    · rcases mem_replace hc with rfl | hc
      · exact .inl List.mem_cons_self
      · exact .inr hc

/-- Tables of which no two fold to the same name are all there afterwards. -/
lemma find_replaceAll {ts : List (Table ν β)} (hts : Distinct (Table.folded fold) ts) :
    (c.replaceAll ts).find k = (lookup (Table.folded fold) k ts).or (c.find k) := by
  induction ts generalizing c with
  | nil => rfl
  | cons t ts ih =>
    obtain ⟨hnot, hts⟩ := List.nodup_cons.mp hts
    show ((c.replace t.name t.content).replaceAll ts).find k = _
    rw [ih hts, find_replace, lookup_cons, Table.folded]
    by_cases hk : fold t.name = k
    · have hnone : lookup (Table.folded fold) k ts = none := lookup_eq_none.mpr (hk ▸ hnot)
      rw [if_pos hk, if_pos hk, hnone]
      rfl
    · rw [if_neg hk, if_neg hk]

end Catalog

end OsmParquet.NamedTables
