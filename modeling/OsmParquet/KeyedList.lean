import Mathlib.Data.List.Nodup
import Mathlib.Data.List.Dedup
import Mathlib.Data.List.Sort

/-!
Tables as lists of rows with a key.

A table is a list; its rows are found by a key that a given function reads off them. What
a query language does with such tables is a handful of list operations: looking a key up,
dropping the rows whose key another table has, keeping the first row of every key, joining
two tables. Each comes with the lemma that says what a lookup in its result finds, so that
a proof about queries is a calculation with lookups.
-/

namespace OsmParquet.KeyedList

variable {α β κ : Type*} [DecidableEq κ]

/-- The first row with key `k`. -/
def lookup (key : α → κ) (k : κ) (l : List α) : Option α := l.find? fun a => key a = k

/-- No two rows have the same key. -/
def Distinct (key : α → κ) (l : List α) : Prop := (l.map key).Nodup

instance decidableDistinct (key : α → κ) (l : List α) : Decidable (Distinct key l) :=
  inferInstanceAs (Decidable (l.map key).Nodup)

/-- The rows whose key is not among `ks`. -/
def without (key : α → κ) (ks : List κ) (l : List α) : List α := l.filter fun a => key a ∉ ks

/-- The first row of every key. -/
def firstPerKey (key : α → κ) : List α → List α
  | [] => []
  | a :: l => a :: without key [key a] (firstPerKey key l)

/-- Every row of `l` paired with each row of `m` it matches, and once with none if it
matches nothing. -/
def leftJoin (on : α → β → Bool) (l : List α) (m : List β) : List (α × Option β) :=
  l.flatMap fun a =>
    match m.filter (on a) with
    | [] => [(a, none)]
    | b :: bs => (b :: bs).map fun b => (a, some b)

/-- Every pair of matching rows. -/
def innerJoin (on : α → β → Bool) (l : List α) (m : List β) : List (α × β) :=
  l.flatMap fun a => (m.filter (on a)).map fun b => (a, b)

section Lookup

variable {key : α → κ} {k : κ} {l m : List α} {a : α}

@[simp] lemma lookup_nil : lookup key k [] = none := rfl

lemma lookup_cons : lookup key k (a :: l) = if key a = k then some a else lookup key k l := by
  by_cases h : key a = k <;> simp [lookup, h]

lemma lookup_append : lookup key k (l ++ m) = (lookup key k l).or (lookup key k m) :=
  List.find?_append

lemma lookup_eq_none : lookup key k l = none ↔ k ∉ l.map key := by
  simp [lookup]

lemma lookup_isSome : (lookup key k l).isSome ↔ k ∈ l.map key := by
  rw [← Option.ne_none_iff_isSome, Ne, lookup_eq_none, not_not]

lemma key_of_lookup (h : lookup key k l = some a) : key a = k := by
  simpa [lookup] using List.find?_some h

lemma mem_of_lookup (h : lookup key k l = some a) : a ∈ l := List.mem_of_find?_eq_some h

lemma Distinct.lookup_of_mem (hu : Distinct key l) (h : a ∈ l) : lookup key (key a) l = some a := by
  induction l with
  | nil => simp at h
  | cons b l ih =>
    obtain ⟨hb, hl⟩ := List.nodup_cons.mp hu
    rw [lookup_cons]
    rcases List.mem_cons.mp h with rfl | h'
    · simp
    · have hne : key b ≠ key a := fun e => hb (e ▸ List.mem_map_of_mem h')
      rw [if_neg hne, ih hl h']

omit [DecidableEq κ] in
/-- Two rows with the same key are one. -/
lemma Distinct.eq_of_key {b : α} (hu : Distinct key l) (ha : a ∈ l) (hb : b ∈ l)
    (h : key a = key b) : a = b :=
  List.inj_on_of_nodup_map hu ha hb h

/-- In a table with one row a key, lookup and membership say the same. -/
lemma Distinct.lookup_eq_some (hu : Distinct key l) :
    lookup key k l = some a ↔ a ∈ l ∧ key a = k := by
  constructor
  · exact fun h => ⟨mem_of_lookup h, key_of_lookup h⟩
  · rintro ⟨h, rfl⟩; exact hu.lookup_of_mem h

/-- Filtering by a condition on the key only. -/
lemma lookup_filter_key (p : κ → Bool) :
    lookup key k (l.filter fun a => p (key a)) = if p k then lookup key k l else none := by
  induction l with
  | nil => simp
  | cons b l ih =>
    by_cases hb : p (key b)
    · rw [List.filter_cons_of_pos (by simpa using hb), lookup_cons, lookup_cons, ih]
      by_cases hk : key b = k
      · subst hk; simp [hb]
      · simp [hk]
    · rw [List.filter_cons_of_neg (by simpa using hb), ih, lookup_cons]
      by_cases hk : key b = k
      · simp [← hk, hb]
      · simp [hk]

lemma lookup_without (ks : List κ) :
    lookup key k (without key ks l) = if k ∈ ks then none else lookup key k l := by
  have h := @lookup_filter_key _ _ _ key k l fun x => decide (x ∉ ks)
  by_cases hk : k ∈ ks
  · simpa [without, hk] using h
  · simpa [without, hk] using h

/-- Filtering a table with one row a key. -/
lemma Distinct.lookup_filter (hu : Distinct key l) (p : α → Bool) :
    lookup key k (l.filter p) = (lookup key k l).filter p := by
  induction l with
  | nil => simp
  | cons b l ih =>
    obtain ⟨hb, hl⟩ := List.nodup_cons.mp hu
    by_cases hk : key b = k
    · subst hk
      have hnone : lookup key (key b) l = none := lookup_eq_none.mpr hb
      by_cases hp : p b
      · simp [hp, lookup_cons, Option.filter]
      · rw [List.filter_cons_of_neg (by simpa using hp), ih hl, hnone, lookup_cons]
        simp [hp, Option.filter]
    · by_cases hp : p b
      · rw [List.filter_cons_of_pos (by simpa using hp), lookup_cons, lookup_cons, if_neg hk,
          if_neg hk, ih hl]
      · rw [List.filter_cons_of_neg (by simpa using hp), ih hl, lookup_cons, if_neg hk]

lemma lookup_map {key' : β → κ} {f : α → β} (hf : ∀ a, key' (f a) = key a) :
    lookup key' k (l.map f) = (lookup key k l).map f := by
  induction l with
  | nil => simp
  | cons b l ih =>
    rw [List.map_cons, lookup_cons, lookup_cons, ih, hf]
    split <;> rfl

lemma Distinct.lookup_filterMap {key' : β → κ} {f : α → Option β} (hu : Distinct key l)
    (hf : ∀ a b, f a = some b → key' b = key a) :
    lookup key' k (l.filterMap f) = (lookup key k l).bind f := by
  induction l with
  | nil => simp
  | cons b l ih =>
    obtain ⟨hb, hl⟩ := List.nodup_cons.mp hu
    rcases hfb : f b with _ | c
    · rw [List.filterMap_cons_none hfb, ih hl, lookup_cons]
      split
      · rename_i hk
        have hnone : lookup key k l = none := lookup_eq_none.mpr (hk ▸ hb)
        simp [hnone, hfb]
      · rfl
    · rw [List.filterMap_cons_some hfb, lookup_cons, lookup_cons, hf b c hfb, ih hl]
      split
      · simp [hfb]
      · rfl

omit [DecidableEq κ] in
@[simp] lemma distinct_nil : Distinct key [] := List.nodup_nil

omit [DecidableEq κ] in
@[simp] lemma distinct_singleton : Distinct key [a] := List.nodup_singleton _

omit [DecidableEq κ] in
lemma Distinct.sublist (hu : Distinct key m) (h : l.Sublist m) : Distinct key l :=
  List.Nodup.sublist (h.map key) hu

omit [DecidableEq κ] in
lemma Distinct.filter (hu : Distinct key l) (p : α → Bool) : Distinct key (l.filter p) :=
  hu.sublist List.filter_sublist

omit [DecidableEq κ] in
lemma Distinct.without [DecidableEq κ] (hu : Distinct key l) (ks : List κ) :
    Distinct key (without key ks l) := hu.filter _

omit [DecidableEq κ] in
lemma distinct_map {key' : β → κ} {f : α → β} (hf : ∀ a, key' (f a) = key a) :
    Distinct key' (l.map f) ↔ Distinct key l := by
  simp [Distinct, Function.comp_def, hf]

omit [DecidableEq κ] in
/-- The rows that are made from others with their keys have some of the keys, in their order. -/
lemma sublist_map_filterMap {key' : β → κ} {f : α → Option β}
    (hf : ∀ a b, f a = some b → key' b = key a) :
    ((l.filterMap f).map key').Sublist (l.map key) := by
  induction l with
  | nil => exact List.Sublist.refl _
  | cons b l ih =>
    rcases hfb : f b with _ | c
    · rw [List.filterMap_cons_none hfb]
      exact ih.cons _
    · rw [List.filterMap_cons_some hfb, List.map_cons, List.map_cons, hf b c hfb]
      exact ih.cons_cons _

omit [DecidableEq κ] in
lemma Distinct.filterMap {key' : β → κ} {f : α → Option β} (hu : Distinct key l)
    (hf : ∀ a b, f a = some b → key' b = key a) : Distinct key' (l.filterMap f) :=
  (sublist_map_filterMap hf).nodup hu

omit [DecidableEq κ] in
/-- A second table may be put under a first that has none of its keys. -/
lemma distinct_append (hl : Distinct key l) (hm : Distinct key m)
    (hd : ∀ x ∈ m.map key, x ∉ l.map key) : Distinct key (l ++ m) := by
  rw [Distinct, List.map_append, List.nodup_append']
  exact ⟨hl, hm, fun x hx hx' => hd x hx' hx⟩

/-- Two tables with one row a key and the same rows are looked up alike. -/
lemma Distinct.lookup_congr (hl : Distinct key l) (hm : Distinct key m) (h : ∀ b, b ∈ l ↔ b ∈ m) :
    lookup key k l = lookup key k m := by
  ext b
  rw [hl.lookup_eq_some, hm.lookup_eq_some, h]

/-- **Two tables with one row a key that are looked up alike** have the same rows. -/
lemma Distinct.perm (hl : Distinct key l) (hm : Distinct key m)
    (h : ∀ k, lookup key k l = lookup key k m) : l.Perm m := by
  refine (List.perm_ext_iff_of_nodup hl.of_map hm.of_map).mpr fun a => ?_
  have hl' := hl.lookup_eq_some (k := key a) (a := a)
  have hm' := hm.lookup_eq_some (k := key a) (a := a)
  rw [h] at hl'
  simpa using hl'.symm.trans hm'

/-- In a table with at most one row for every key of a list, made from the key, a key of the list
finds its row. -/
lemma lookup_filterMap_of_mem {f : κ → Option α}
    (hf : ∀ k a, f k = some a → key a = k) {ks : List κ}
    (hk : k ∈ ks) : lookup key k (ks.filterMap f) = f k := by
  have hlater : ∀ c a, f c = some a → key a = k → f k = some a := by
    intro c a hc hak
    rw [← hak, hf c a hc, hc]
  cases hfk : f k with
  | none =>
    rw [lookup_eq_none]
    intro hin
    obtain ⟨a, ha, hak⟩ := List.mem_map.mp hin
    obtain ⟨c, -, hc⟩ := List.mem_filterMap.mp ha
    rw [hlater c a hc hak] at hfk
    cases hfk
  | some a =>
    have hin : a ∈ ks.filterMap f := List.mem_filterMap.mpr ⟨k, hk, hfk⟩
    have hsome : (lookup key k (ks.filterMap f)).isSome :=
      lookup_isSome.mpr (hf k a hfk ▸ List.mem_map_of_mem hin)
    obtain ⟨x, hx⟩ := Option.isSome_iff_exists.mp hsome
    obtain ⟨c, -, hc⟩ := List.mem_filterMap.mp (mem_of_lookup hx)
    rw [hx, ← hlater c x hc (key_of_lookup hx), hfk]

/-- A key that is not in the list finds nothing. -/
lemma lookup_filterMap_of_not_mem {f : κ → Option α} (hf : ∀ k a, f k = some a → key a = k)
    {ks : List κ} (hk : k ∉ ks) : lookup key k (ks.filterMap f) = none := by
  rw [lookup_eq_none]
  intro hin
  obtain ⟨a, ha, hak⟩ := List.mem_map.mp hin
  obtain ⟨c, hc, hfc⟩ := List.mem_filterMap.mp ha
  exact hk (hak ▸ hf c a hfc ▸ hc)

omit [DecidableEq κ] in
/-- Two tables with the same rows are the same once they are sorted, if no two rows tie. -/
lemma Distinct.sort_eq {τ : Type*} [LinearOrder τ] (rank : α → τ) (hl : Distinct key l)
    (hm : Distinct key m) (hinj : ∀ x ∈ l, ∀ y ∈ l, rank x = rank y → x = y)
    (h : ∀ b, b ∈ l ↔ b ∈ m) :
    l.insertionSort (fun a b => rank a ≤ rank b) = m.insertionSort fun a b => rank a ≤ rank b := by
  have hperm : l.Perm m :=
    (List.perm_ext_iff_of_nodup (List.Nodup.of_map _ hl) (List.Nodup.of_map _ hm)).mpr h
  have htotal : Std.Total fun a b : α => rank a ≤ rank b := ⟨fun _ _ => le_total _ _⟩
  have htrans : IsTrans α fun a b => rank a ≤ rank b := ⟨fun _ _ _ => le_trans⟩
  refine List.Perm.eq_of_pairwise
    (fun a b ha hb (hab : rank a ≤ rank b) (hba : rank b ≤ rank a) => ?_)
    (List.pairwise_insertionSort _ _) (List.pairwise_insertionSort _ _)
    (((List.perm_insertionSort _ l).trans hperm).trans (List.perm_insertionSort _ m).symm)
  have ha' : a ∈ l := (List.perm_insertionSort _ l).mem_iff.mp ha
  have hb' : b ∈ l := (h b).mpr ((List.perm_insertionSort _ m).mem_iff.mp hb)
  exact hinj a ha' b hb' (le_antisymm hab hba)

omit [DecidableEq κ] in
/-- Tables put one after another, none with a key of another. -/
lemma distinct_flatMap {ι : Type*} {f : ι → List α} {is : List ι} (hi : is.Nodup)
    (hf : ∀ i ∈ is, Distinct key (f i))
    (hd : ∀ i ∈ is, ∀ j ∈ is, ∀ x ∈ f i, ∀ y ∈ f j, key x = key y → i = j) :
    Distinct key (is.flatMap f) := by
  induction is with
  | nil => exact distinct_nil
  | cons i is ih =>
    obtain ⟨hnot, his⟩ := List.nodup_cons.mp hi
    rw [List.flatMap_cons]
    refine distinct_append (hf i (by simp)) (ih his (fun j hj => hf j (by simp [hj]))
      fun j hj k hk => hd j (by simp [hj]) k (by simp [hk])) fun x hx hx' => ?_
    obtain ⟨b, hb, rfl⟩ := List.mem_map.mp hx
    obtain ⟨j, hj, hbj⟩ := List.mem_flatMap.mp hb
    obtain ⟨c, hc, hce⟩ := List.mem_map.mp hx'
    have := hd i (by simp) j (by simp [hj]) c hc b hbj hce
    exact hnot (this ▸ hj)

lemma mem_map_without {ks : List κ} {x : κ} :
    x ∈ (without key ks l).map key ↔ x ∈ l.map key ∧ x ∉ ks := by
  constructor
  · intro h
    obtain ⟨b, hb, rfl⟩ := List.mem_map.mp h
    obtain ⟨h1, h2⟩ := List.mem_filter.mp hb
    exact ⟨List.mem_map_of_mem h1, by simpa using h2⟩
  · rintro ⟨h, hx⟩
    obtain ⟨b, hb, rfl⟩ := List.mem_map.mp h
    exact List.mem_map_of_mem (List.mem_filter.mpr ⟨hb, by simpa using hx⟩)

end Lookup

section FirstPerKey

variable {key : α → κ} {k : κ} {l : List α} {a : α}

lemma lookup_firstPerKey : lookup key k (firstPerKey key l) = lookup key k l := by
  induction l with
  | nil => rfl
  | cons b l ih =>
    rw [firstPerKey, lookup_cons, lookup_cons, lookup_without, ih]
    by_cases hk : key b = k
    · simp [hk]
    · simp [hk, Ne.symm hk]

lemma distinct_firstPerKey : Distinct key (firstPerKey key l) := by
  induction l with
  | nil => simp [firstPerKey]
  | cons b l ih =>
    refine List.nodup_cons.mpr ⟨?_, ih.filter _⟩
    intro h
    exact (mem_map_without.mp h).2 (by simp)

lemma mem_firstPerKey : a ∈ firstPerKey key l ↔ lookup key (key a) l = some a := by
  rw [← lookup_firstPerKey]
  exact ⟨fun h => distinct_firstPerKey.lookup_of_mem h, mem_of_lookup⟩

end FirstPerKey

section Join

variable {keyA : α → κ} {keyB : β → κ} {l : List α} {m : List β}

lemma filter_key_eq (hu : Distinct keyB m) (k : κ) :
    m.filter (fun b => keyB b = k) = (lookup keyB k m).toList := by
  induction m with
  | nil => rfl
  | cons b m ih =>
    obtain ⟨hb, hm⟩ := List.nodup_cons.mp hu
    by_cases hk : keyB b = k
    · have hnone : lookup keyB k m = none := lookup_eq_none.mpr (hk ▸ hb)
      rw [List.filter_cons_of_pos (by simpa using hk), ih hm, hnone, lookup_cons, if_pos hk]
      rfl
    · rw [List.filter_cons_of_neg (by simpa using hk), ih hm, lookup_cons, if_neg hk]

/-- Joining to a table with one row a key keeps every row once. -/
lemma leftJoin_eq_map (hu : Distinct keyB m) :
    leftJoin (fun a b => keyB b = keyA a) l m = l.map fun a => (a, lookup keyB (keyA a) m) := by
  induction l with
  | nil => rfl
  | cons a l ih =>
    have h := filter_key_eq hu (keyA a)
    rw [leftJoin, List.flatMap_cons, ← leftJoin, ih, List.map_cons]
    rcases hm : lookup keyB (keyA a) m with _ | b
    · simp [h, hm]
    · simp [h, hm]

lemma innerJoin_eq_filterMap (hu : Distinct keyB m) :
    innerJoin (fun a b => keyB b = keyA a) l m =
      l.filterMap fun a => (lookup keyB (keyA a) m).map fun b => (a, b) := by
  induction l with
  | nil => rfl
  | cons a l ih =>
    have h := filter_key_eq hu (keyA a)
    rw [innerJoin, List.flatMap_cons, ← innerJoin, ih, List.filterMap_cons]
    rcases hm : lookup keyB (keyA a) m with _ | b
    · simp [h, hm]
    · simp [h, hm]

end Join

end OsmParquet.KeyedList
