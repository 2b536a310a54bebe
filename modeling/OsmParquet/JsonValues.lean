import Mathlib.Algebra.Order.Ring.Int
import Mathlib.Data.Rat.Defs
import Mathlib.Tactic.Common

/-!
JSON values as a program handles them that does not check their types.

An object is a list of keys and values in the order they were put in; a key that is there already
keeps its place. Reading a value as something it is not raises an error, which is a text here. What
counts as empty is what a condition takes for false.
-/

namespace OsmParquet.JsonValues

inductive Json where
  | null
  | bool (b : Bool)
  | int (z : ℤ)
  | float (q : ℚ)
  | str (s : String)
  | arr (items : List Json)
  | obj (fields : List (String × Json))

/-- The fields of an object. -/
abbrev Fields := List (String × Json)

/-! ### Objects -/

/-- The value of a key. -/
def lookup : Fields → String → Option Json
  | [], _ => none
  | (k', v) :: rest, k => bif k' == k then some v else lookup rest k

/-- An object with a key set to a value. -/
def setKey : Fields → String → Json → Fields
  | [], k, v => [(k, v)]
  | (k', v') :: rest, k, v => bif k' == k then (k', v) :: rest else (k', v') :: setKey rest k v

section Objects

variable {fields : Fields} {k k' : String} {v : Json}

@[simp] lemma lookup_nil : lookup [] k = none := rfl

lemma lookup_cons :
    lookup ((k', v) :: fields) k = bif k' == k then some v else lookup fields k := rfl

lemma setKey_cons {w : Json} : setKey ((k', w) :: fields) k v =
    bif k' == k then (k', v) :: fields else (k', w) :: setKey fields k v := rfl

lemma lookup_append (xs ys : Fields) (k : String) :
    lookup (xs ++ ys) k = (lookup xs k).or (lookup ys k) := by
  induction xs with
  | nil => rfl
  | cons entry xs ih =>
    obtain ⟨key, value⟩ := entry
    rw [List.cons_append, lookup_cons, lookup_cons, ih]
    cases key == k <;> rfl

lemma lookup_setKey : lookup (setKey fields k v) k' =
    bif k == k' then some v else lookup fields k' := by
  induction fields with
  | nil => rfl
  | cons entry rest ih =>
    obtain ⟨key, value⟩ := entry
    rw [setKey_cons]
    rcases hk : key == k with _ | _
    · rw [cond_false, lookup_cons, lookup_cons, ih]
      rcases hk' : key == k' with _ | _
      · rfl
      · have hne : (k == k') = false := by
          rw [beq_eq_false_iff_ne] at hk ⊢
          exact fun h => hk ((beq_iff_eq.mp hk').trans h.symm)
        rw [hne]
        rfl
    · rw [cond_true, lookup_cons, lookup_cons, beq_iff_eq.mp hk]
      cases k == k' <;> rfl

/-- Setting a key keeps a property that all values of an object have. -/
lemma mem_setKey {entry : String × Json} (h : entry ∈ setKey fields k v) :
    entry = (k, v) ∨ entry ∈ fields := by
  induction fields with
  | nil => exact Or.inl (List.mem_singleton.mp h)
  | cons first rest ih =>
    obtain ⟨key, value⟩ := first
    rw [setKey_cons] at h
    rcases hk : key == k with _ | _
    · rw [hk, cond_false] at h
      rcases List.mem_cons.mp h with h | h
      · exact Or.inr (h ▸ List.mem_cons_self)
      · exact (ih h).imp_right (List.mem_cons_of_mem _)
    · rw [hk, cond_true] at h
      rcases List.mem_cons.mp h with h | h
      · exact Or.inl (beq_iff_eq.mp hk ▸ h)
      · exact Or.inr (List.mem_cons_of_mem _ h)

end Objects

/-! ### Reading -/

/-- What a condition takes a value for. -/
def truthy : Json → Bool
  | .null => false
  | .bool b => b
  | .int z => z ≠ 0
  | .float q => q ≠ 0
  | .str s => s ≠ ""
  | .arr items => !items.isEmpty
  | .obj fields => !fields.isEmpty

/-- A value, or another one where it counts as empty. -/
def orElse (v w : Json) : Json := if truthy v then v else w

/-- `d[k]`. -/
def getItem (k : String) : Json → Except String Json
  | .obj fields =>
    match lookup fields k with
    | some v => .ok v
    | none => .error s!"KeyError: {k}"
  | _ => .error "TypeError"

/-- `d.get(k, default)`. -/
def get (k : String) (default : Json) : Json → Except String Json
  | .obj fields => .ok ((lookup fields k).getD default)
  | _ => .error "AttributeError: get"

/-- `k in d`, for an object. -/
def hasKey (k : String) : Json → Except String Bool
  | .obj fields => .ok (lookup fields k).isSome
  | _ => .error "TypeError"

/-- `d.items()`. -/
def items : Json → Except String Fields
  | .obj fields => .ok fields
  | _ => .error "AttributeError: items"

/-- `d.values()`. -/
def values : Json → Except String (List Json)
  | .obj fields => .ok (fields.map (·.2))
  | _ => .error "AttributeError: values"

/-- What a loop over a value goes through. -/
def elems : Json → Except String (List Json)
  | .arr items => .ok items
  | .obj fields => .ok (fields.map fun kv => .str kv.1)
  | .str s => .ok (s.toList.map fun c => .str (String.singleton c))
  | _ => .error "TypeError: not iterable"

/-- `{**d}`: a copy of an object. -/
def dict : Json → Except String Fields
  | .obj fields => .ok fields
  | _ => .error "TypeError: not a mapping"

/-- `v >= k`. -/
def atLeast (k : ℤ) : Json → Except String Bool
  | .int z => .ok (k ≤ z)
  | .float q => .ok ((k : ℚ) ≤ q)
  | .bool b => .ok (k ≤ b.toNat)
  | _ => .error "TypeError: not supported between instances"

/-- `max(k, v)`, where both are whole numbers. -/
def maxInt (k : ℤ) : Json → Except String Json
  | .int z => .ok (.int (max k z))
  | _ => .error "TypeError: not supported between instances"

/-- `d[k] = v`. -/
def setItem (k : String) (v : Json) : Json → Except String Json
  | .obj fields => .ok (.obj (setKey fields k v))
  | _ => .error "TypeError: item assignment"

/-- What a loop collects that may raise an error. -/
def collect {α β : Type} (f : α → Except String (List β)) : List α → Except String (List β)
  | [] => .ok []
  | x :: xs => do
    let first ← f x
    let rest ← collect f xs
    return first ++ rest

section Reading

variable {k : String} {v w : Json} {fields : Fields}

lemma orElse_of_truthy (h : truthy v = true) : orElse v w = v := if_pos h

/-- An object is its own alternative to an empty one. -/
@[simp] lemma orElse_obj : orElse (.obj fields) (.obj []) = .obj fields := by
  rcases fields with _ | ⟨entry, rest⟩
  · rfl
  · rfl

lemma getItem_obj (h : lookup fields k = some v) : getItem k (.obj fields) = .ok v := by
  rw [getItem]
  simp only [h]

@[simp] lemma get_obj : get k v (.obj fields) = .ok ((lookup fields k).getD v) := rfl

@[simp] lemma items_obj : items (.obj fields) = .ok fields := rfl

@[simp] lemma values_obj : values (.obj fields) = .ok (fields.map (·.2)) := rfl

@[simp] lemma elems_arr {xs : List Json} : elems (.arr xs) = .ok xs := rfl

@[simp] lemma setItem_obj : setItem k v (.obj fields) = .ok (.obj (setKey fields k v)) := rfl

/-- **Two loops whose passes agree and succeed agree and succeed.** -/
lemma collect_agree {α β : Type} {f f' : α → Except String (List β)} {xs : List α}
    (h : ∀ x ∈ xs, ∃ ys, f x = .ok ys ∧ f' x = .ok ys) :
    ∃ ys, collect f xs = .ok ys ∧ collect f' xs = .ok ys := by
  induction xs with
  | nil => exact ⟨[], rfl, rfl⟩
  | cons x xs ih =>
    obtain ⟨first, hf, hf'⟩ := h x List.mem_cons_self
    obtain ⟨rest, hr, hr'⟩ := ih fun y hy => h y (List.mem_cons_of_mem _ hy)
    refine ⟨first ++ rest, ?_, ?_⟩
    · rw [collect, hf, hr]
      rfl
    · rw [collect, hf', hr']
      rfl

lemma collect_succeeds {α β : Type} {f : α → Except String (List β)} {xs : List α}
    (h : ∀ x ∈ xs, ∃ ys, f x = .ok ys) : ∃ ys, collect f xs = .ok ys := by
  obtain ⟨ys, hys, -⟩ := collect_agree fun x hx => by
    obtain ⟨first, hf⟩ := h x hx
    exact ⟨first, hf, hf⟩
  exact ⟨ys, hys⟩

lemma collect_map {α β γ : Type} {f : β → Except String (List γ)} {r : α → β} {xs : List α} :
    collect f (xs.map r) = collect (fun x => f (r x)) xs := by
  induction xs with
  | nil => rfl
  | cons x xs ih => rw [List.map_cons, collect, collect, ih]

end Reading

end OsmParquet.JsonValues
