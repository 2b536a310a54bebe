import OsmParquet.ByidReads

/-!
Compacting the by-id parts.

Compaction rewrites the parts that the newest tier rows fall into and links the others as they
are. A new row goes to the part whose id range has its id, else to the nearest part below, else
to the first. So the parts stay sorted, every id stays in one part, and the table holds what
the base with the tiers over it held.
-/

namespace OsmParquet.CompactByid

open OsmParquet.KeyedList OsmParquet.Rows OsmParquet.ByidReads

variable {α : Type}

/-- The index of the part a row with this id belongs to. -/
def targetPart (parts : List (ByidPart α)) (id : ℤ) : ℕ :=
  (((parts.zipIdx.find? fun p => p.1.minId ≤ id ∧ id ≤ p.1.maxId).or
    ((parts.zipIdx.filter fun p => p.1.maxId < id).maxOn? fun p => p.1.maxId)).map Prod.snd).getD 0

/-- The part with these rows; without a row it is not written. -/
def partOf (rows : List (Row α)) (hu : Distinct Row.id rows) : Option (ByidPart α) :=
  match hlo : (rows.map Row.id).min?, hhi : (rows.map Row.id).max? with
  | some lo, some hi => some
    { minId := lo
      maxId := hi
      rows := rows
      le := (List.max?_eq_some_iff.mp hhi).2 lo (List.min?_eq_some_iff.mp hlo).1
      unique := hu
      inRange := fun r hr => ⟨(List.min?_eq_some_iff.mp hlo).2 r.id (List.mem_map_of_mem hr),
        (List.max?_eq_some_iff.mp hhi).2 r.id (List.mem_map_of_mem hr)⟩ }
  | _, _ => none

/-- What a part holds after compaction: the rows no tier has changed, and the new ones. -/
def partRows (parts : List (ByidPart α)) (winners : List (DeltaRow α)) (p : ByidPart α) (i : ℕ) :
    List (Row α) :=
  (p.rows.filter fun r => r.id ∉ winners.map DeltaRow.id) ++
    aliveRows (winners.filter fun w => targetPart parts w.id = i)

lemma distinct_partRows {winners : List (DeltaRow α)} (hw : Distinct DeltaRow.id winners)
    (parts : List (ByidPart α)) (p : ByidPart α) (i : ℕ) :
    Distinct Row.id (partRows parts winners p i) := by
  refine distinct_append (p.unique.filter _) (distinct_aliveRows (hw.filter _)) fun x hx hx' => ?_
  obtain ⟨a, ha, rfl⟩ := List.mem_map.mp hx
  obtain ⟨w, hw', hwa⟩ := List.mem_filterMap.mp ha
  have hnot := (mem_map_without.mp hx').2
  rw [DeltaRow.alive_id hwa] at hnot
  exact hnot (List.mem_map_of_mem (List.mem_filter.mp hw').1)

/-- The new part at index `i`, or the old one when no new row belongs there. -/
def compactPart (parts : List (ByidPart α)) (winners : List (DeltaRow α))
    (hw : Distinct DeltaRow.id winners) (p : ByidPart α × ℕ) : Option (ByidPart α) :=
  if p.2 ∈ winners.map fun w => targetPart parts w.id then
    partOf (partRows parts winners p.1 p.2) (distinct_partRows hw parts p.1 p.2)
  else some p.1

def compactParts (parts : List (ByidPart α)) (winners : List (DeltaRow α))
    (hw : Distinct DeltaRow.id winners) : List (ByidPart α) :=
  if parts = [] then (partOf (aliveRows winners) (distinct_aliveRows hw)).toList
  else parts.zipIdx.filterMap (compactPart parts winners hw)

/-! ### Which part an id belongs to -/

/-- The id is not below part `i`, unless that is the first, and below every later part. -/
structure Owned (parts : List (ByidPart α)) (i : ℕ) (id : ℤ) : Prop where
  lt : i < parts.length
  above : i = 0 ∨ ∀ p, parts[i]? = some p → p.minId ≤ id
  below : ∀ j p, i < j → parts[j]? = some p → id < p.minId

section Sorted

variable {parts : List (ByidPart α)}

lemma sorted_getElem? (hs : parts.Pairwise fun p q => p.maxId < q.minId) {i j : ℕ}
    {p q : ByidPart α} (hi : parts[i]? = some p) (hj : parts[j]? = some q) (hij : i < j) :
    p.maxId < q.minId := by
  obtain ⟨hi1, rfl⟩ := List.getElem?_eq_some_iff.mp hi
  obtain ⟨hj1, rfl⟩ := List.getElem?_eq_some_iff.mp hj
  exact List.pairwise_iff_getElem.mp hs i j hi1 hj1 hij

/-- A part owns every id in its range. -/
lemma owned_of_range (hs : parts.Pairwise fun p q => p.maxId < q.minId) {i : ℕ} {p : ByidPart α}
    (hi : parts[i]? = some p) {id : ℤ} (h1 : p.minId ≤ id) (h2 : id ≤ p.maxId) :
    Owned parts i id where
  lt := (List.getElem?_eq_some_iff.mp hi).1
  above := Or.inr fun q hq => by rw [hi] at hq; cases hq; exact h1
  below := by
    intro j q hij hq
    have := sorted_getElem? hs hi hq hij
    omega

/-- Only one part owns an id, and the greater id is owned by the later part. -/
lemma lt_of_owned {i j : ℕ} {a b : ℤ} (ha : Owned parts i a) (hb : Owned parts j b) (hij : i < j) :
    a < b := by
  obtain ⟨q, hq⟩ : ∃ q, parts[j]? = some q := ⟨_, List.getElem?_eq_getElem hb.lt⟩
  have h1 := ha.below j q hij hq
  rcases hb.above with h0 | h2
  · omega
  · have := h2 q hq
    omega

lemma owned_unique {i j : ℕ} {a : ℤ} (ha : Owned parts i a) (hb : Owned parts j a) : i = j := by
  rcases Nat.lt_trichotomy i j with h | h | h
  · exact absurd (lt_of_owned ha hb h) (lt_irrefl a)
  · exact h
  · exact absurd (lt_of_owned hb ha h) (lt_irrefl a)

/-- An id below all parts goes to the first. -/
lemma owned_first {id : ℤ} (hne : parts ≠ [])
    (hall : ∀ (j : ℕ) (q : ByidPart α), parts[j]? = some q → id < q.minId) : Owned parts 0 id :=
  ⟨List.length_pos_iff.mpr hne, Or.inl rfl, fun j q _ hq => hall j q hq⟩

/-- An id in no part goes to the nearest one below. -/
lemma owned_below (hs : parts.Pairwise fun p q => p.maxId < q.minId) {id : ℤ} {k : ℕ}
    {p : ByidPart α} (hk : parts[k]? = some p) (hlt : p.maxId < id)
    (hout : ∀ (j : ℕ) (q : ByidPart α), parts[j]? = some q → ¬ (q.minId ≤ id ∧ id ≤ q.maxId))
    (hmax : ∀ (j : ℕ) (q : ByidPart α), parts[j]? = some q → q.maxId < id → q.maxId ≤ p.maxId) :
    Owned parts k id := by
  have hle := p.le
  refine ⟨(List.getElem?_eq_some_iff.mp hk).1, Or.inr fun q hq => ?_, fun j q hkj hq => ?_⟩
  · have hkq : parts[k]? = some q := hq
    rw [hk] at hkq
    cases hkq
    omega
  · have h1 := sorted_getElem? hs hk hq hkj
    have h2 := hout j q hq
    have h3 : ¬ q.maxId < id := by
      intro h
      have := hmax j q hq h
      have := q.le
      omega
    omega

lemma owned_targetPart (hs : parts.Pairwise fun p q => p.maxId < q.minId) (hne : parts ≠ [])
    (id : ℤ) : Owned parts (targetPart parts id) id := by
  rcases hf : parts.zipIdx.find? fun p => p.1.minId ≤ id ∧ id ≤ p.1.maxId with _ | ⟨p, k⟩
  · have hnone := List.find?_eq_none.mp hf
    have hout : ∀ (j : ℕ) (q : ByidPart α), parts[j]? = some q →
        ¬ (q.minId ≤ id ∧ id ≤ q.maxId) := by
      intro j q hq
      simpa using hnone (q, j) (List.mem_zipIdx_iff_getElem?.mpr hq)
    have hbelow : ∀ (j : ℕ) (q : ByidPart α), parts[j]? = some q → q.maxId < id →
        (q, j) ∈ parts.zipIdx.filter fun p => p.1.maxId < id := fun j q hq hlt =>
      List.mem_filter.mpr ⟨List.mem_zipIdx_iff_getElem?.mpr hq, by simpa using hlt⟩
    rcases ha : (parts.zipIdx.filter fun p => p.1.maxId < id).maxOn? fun p => p.1.maxId with
      _ | ⟨p, k⟩
    · have ht : targetPart parts id = 0 := by rw [targetPart, hf, ha]; rfl
      rw [ht]
      refine owned_first hne fun j q hq => ?_
      have h1 : ¬ q.maxId < id := by
        intro hlt
        have hsome := List.isSome_maxOn?_of_mem (f := fun p : ByidPart α × ℕ => p.1.maxId)
          (hbelow j q hq hlt)
        rw [ha] at hsome
        cases hsome
      have h2 := hout j q hq
      omega
    · have ht : targetPart parts id = k := by rw [targetPart, hf, ha]; rfl
      rw [ht]
      obtain ⟨hz, hlt⟩ := List.mem_filter.mp (List.maxOn?_mem ha)
      refine owned_below hs (List.mem_zipIdx_iff_getElem?.mp hz) (by simpa using hlt) hout ?_
      intro j q hq hlt'
      have hle := List.le_apply_get_maxOn?_of_mem (f := fun p : ByidPart α × ℕ => p.1.maxId)
        (hbelow j q hq hlt')
      simpa only [ha, Option.get_some] using hle
  · have ht : targetPart parts id = k := by rw [targetPart, hf]; rfl
    have hmem := List.mem_of_find?_eq_some hf
    have hk : parts[k]? = some p := List.mem_zipIdx_iff_getElem?.mp hmem
    have hr : p.minId ≤ id ∧ id ≤ p.maxId := by simpa using List.find?_some hf
    rw [ht]
    exact owned_of_range hs hk hr.1 hr.2

end Sorted

/-! ### The compacted table -/

lemma partOf_eq_some {rows : List (Row α)} {hu : Distinct Row.id rows} {p : ByidPart α}
    (h : partOf rows hu = some p) :
    p.rows = rows ∧ p.minId ∈ rows.map Row.id ∧ p.maxId ∈ rows.map Row.id := by
  unfold partOf at h
  split at h
  · rename_i lo hi hlo hhi
    cases h
    exact ⟨rfl, (List.min?_eq_some_iff.mp hlo).1, (List.max?_eq_some_iff.mp hhi).1⟩
  · cases h

lemma partOf_isSome {rows : List (Row α)} (hu : Distinct Row.id rows) (hne : rows ≠ []) :
    (partOf rows hu).isSome := by
  have hne' : rows.map Row.id ≠ [] := by simpa using hne
  obtain ⟨lo, hlo⟩ := Option.isSome_iff_exists.mp (List.isSome_min?_of_ne_nil hne')
  obtain ⟨hi, hhi⟩ := Option.isSome_iff_exists.mp (List.isSome_max?_of_ne_nil hne')
  unfold partOf
  split
  · rfl
  · rename_i h
    exact absurd hhi (h lo hi hlo)

/-- The rows of the part that `partOf` writes, or none. -/
lemma rows_partOf {rows : List (Row α)} (hu : Distinct Row.id rows) (r : Row α) :
    (∃ p, partOf rows hu = some p ∧ r ∈ p.rows) ↔ r ∈ rows := by
  constructor
  · rintro ⟨p, hp, hr⟩
    rw [(partOf_eq_some hp).1] at hr
    exact hr
  · intro hr
    obtain ⟨p, hp⟩ := Option.isSome_iff_exists.mp (partOf_isSome hu (List.ne_nil_of_mem hr))
    exact ⟨p, hp, by rw [(partOf_eq_some hp).1]; exact hr⟩

section Table

variable {parts : List (ByidPart α)} {winners : List (DeltaRow α)}
  {hw : Distinct DeltaRow.id winners}

lemma owned_of_mem_partRows (hs : parts.Pairwise fun p q => p.maxId < q.minId) {i : ℕ}
    {p : ByidPart α} (hi : parts[i]? = some p) {r : Row α} (hr : r ∈ partRows parts winners p i) :
    Owned parts i r.id := by
  have hne : parts ≠ [] := List.ne_nil_of_mem (List.mem_of_getElem? hi)
  rcases List.mem_append.mp hr with h | h
  · have hrange := p.inRange r (List.mem_filter.mp h).1
    exact owned_of_range hs hi hrange.1 hrange.2
  · obtain ⟨w, hw', hwa⟩ := List.mem_filterMap.mp h
    have ht : targetPart parts w.id = i := by simpa using (List.mem_filter.mp hw').2
    rw [DeltaRow.alive_id hwa, ← ht]
    exact owned_targetPart hs hne w.id

/-- A new part has its id range among the ids that belong to it. -/
lemma owned_compactPart (hs : parts.Pairwise fun p q => p.maxId < q.minId) {i : ℕ}
    {p q : ByidPart α} (hi : parts[i]? = some p)
    (hq : compactPart parts winners hw (p, i) = some q) :
    Owned parts i q.minId ∧ Owned parts i q.maxId := by
  unfold compactPart at hq
  split at hq
  · obtain ⟨-, h1, h2⟩ := partOf_eq_some hq
    obtain ⟨r1, hr1, e1⟩ := List.mem_map.mp h1
    obtain ⟨r2, hr2, e2⟩ := List.mem_map.mp h2
    rw [← e1, ← e2]
    exact ⟨owned_of_mem_partRows hs hi hr1, owned_of_mem_partRows hs hi hr2⟩
  · obtain rfl : p = q := by simpa using hq
    exact ⟨owned_of_range hs hi le_rfl p.le, owned_of_range hs hi p.le le_rfl⟩

/-- **The parts stay sorted.** -/
lemma sorted_compactParts (hs : parts.Pairwise fun p q => p.maxId < q.minId) :
    (compactParts parts winners hw).Pairwise fun p q => p.maxId < q.minId := by
  unfold compactParts
  split
  · cases partOf (aliveRows winners) (distinct_aliveRows hw) <;> simp
  · rw [List.pairwise_filterMap, List.pairwise_iff_getElem]
    intro i j hi hj hij p hp q hq
    rw [List.getElem_zipIdx] at hp hq
    have hi' : i < parts.length := by simpa using hi
    have hj' : j < parts.length := by simpa using hj
    have h1 := (owned_compactPart hs (List.getElem?_eq_getElem hi') (by simpa using hp)).2
    have h2 := (owned_compactPart hs (List.getElem?_eq_getElem hj') (by simpa using hq)).1
    exact lt_of_owned h1 h2 hij

lemma mem_flatMap_compactPart {r : Row α} : r ∈
    (compactParts parts winners hw).flatMap ByidPart.rows ↔
    if parts = [] then r ∈ aliveRows winners
    else ∃ i p, parts[i]? = some p ∧
      ∃ q, compactPart parts winners hw (p, i) = some q ∧ r ∈ q.rows := by
  unfold compactParts
  split
  · rw [← rows_partOf (distinct_aliveRows hw)]
    simp
  · simp only [List.mem_flatMap, List.mem_filterMap, Prod.exists]
    constructor
    · rintro ⟨q, ⟨p, i, hpi, hq⟩, hr⟩
      exact ⟨i, p, List.mem_zipIdx_iff_getElem?.mp hpi, q, hq, hr⟩
    · rintro ⟨i, p, hpi, q, hq, hr⟩
      exact ⟨q, ⟨p, i, List.mem_zipIdx_iff_getElem?.mpr hpi, hq⟩, hr⟩

/-- A part that is linked as it is has none of the changed ids. -/
lemma not_changed_of_untouched (hs : parts.Pairwise fun p q => p.maxId < q.minId) {i : ℕ}
    {p : ByidPart α} (hi : parts[i]? = some p) (hu : i ∉ winners.map fun w => targetPart parts w.id)
    {r : Row α} (hr : r ∈ p.rows) : r.id ∉ winners.map DeltaRow.id := by
  intro h
  obtain ⟨w, hw', hwe⟩ := List.mem_map.mp h
  have hne : parts ≠ [] := List.ne_nil_of_mem (List.mem_of_getElem? hi)
  have hrange := p.inRange r hr
  have h1 := owned_of_range hs hi hrange.1 hrange.2
  have h2 := owned_targetPart hs hne r.id
  refine hu (List.mem_map.mpr ⟨w, hw', ?_⟩)
  rw [hwe, owned_unique h1 h2]

/-- **What the compacted parts hold**: the rows no tier has changed and the new ones. -/
lemma mem_compactParts (hs : parts.Pairwise fun p q => p.maxId < q.minId) (r : Row α) :
    r ∈ (compactParts parts winners hw).flatMap ByidPart.rows ↔
      r ∈ (parts.flatMap ByidPart.rows).filter (fun r => r.id ∉ winners.map DeltaRow.id) ++
        aliveRows winners := by
  rw [mem_flatMap_compactPart]
  split
  · rename_i h; subst h; simp
  · rename_i hne
    rw [List.mem_append, List.mem_filter, List.mem_flatMap]
    constructor
    · rintro ⟨i, p, hpi, q, hq, hr⟩
      have hp : p ∈ parts := List.mem_of_getElem? hpi
      unfold compactPart at hq
      split at hq
      · rw [(partOf_eq_some hq).1] at hr
        rcases List.mem_append.mp hr with h | h
        · exact Or.inl ⟨⟨p, hp, (List.mem_filter.mp h).1⟩, (List.mem_filter.mp h).2⟩
        · obtain ⟨w, hw', hwa⟩ := List.mem_filterMap.mp h
          exact Or.inr (List.mem_filterMap.mpr ⟨w, (List.mem_filter.mp hw').1, hwa⟩)
      · rename_i hu
        obtain rfl : p = q := by simpa using hq
        exact Or.inl ⟨⟨p, hp, hr⟩, by simpa using not_changed_of_untouched hs hpi hu hr⟩
    · rintro (⟨⟨p, hp, hr⟩, hnot⟩ | h)
      · obtain ⟨i, hpi⟩ := List.mem_iff_getElem?.mp hp
        refine ⟨i, p, hpi, ?_⟩
        unfold compactPart
        split
        · rw [rows_partOf]
          exact List.mem_append.mpr (Or.inl (List.mem_filter.mpr ⟨hr, hnot⟩))
        · exact ⟨p, rfl, hr⟩
      · obtain ⟨w, hw', hwa⟩ := List.mem_filterMap.mp h
        have hown := owned_targetPart hs hne w.id
        refine ⟨targetPart parts w.id, _, List.getElem?_eq_getElem hown.lt, ?_⟩
        unfold compactPart
        rw [if_pos (List.mem_map.mpr ⟨w, hw', rfl⟩), rows_partOf]
        exact List.mem_append.mpr (Or.inr (List.mem_filterMap.mpr
          ⟨w, List.mem_filter.mpr ⟨hw', by simp⟩, hwa⟩))

end Table

/-- The by-id parts of the new generation. -/
def compactByidTable (b : ByidTable α) (winners : List (DeltaRow α))
    (hw : Distinct DeltaRow.id winners) : ByidTable α :=
  ⟨compactParts b.parts winners hw, sorted_compactParts b.sorted⟩

/-- **Compaction of the by-id parts applies the newest rows to them.** -/
theorem byId_compactByidTable (b : ByidTable α) {winners : List (DeltaRow α)}
    (hw : Distinct DeltaRow.id winners) (i : ℤ) : byId i (compactByidTable b winners hw).rows =
      ((deltaById i winners).map DeltaRow.alive).getD (byId i b.rows) := by
  have hu : Distinct Row.id (b.rows.filter (fun r => r.id ∉ winners.map DeltaRow.id) ++
      aliveRows winners) := by
    refine distinct_append ((distinct_rows b).filter _) (distinct_aliveRows hw) fun x hx hx' => ?_
    obtain ⟨a, ha, rfl⟩ := List.mem_map.mp hx
    obtain ⟨w, hw', hwa⟩ := List.mem_filterMap.mp ha
    have hnot := (mem_map_without.mp hx').2
    rw [DeltaRow.alive_id hwa] at hnot
    exact hnot (List.mem_map_of_mem hw')
  have hcongr : byId i (compactByidTable b winners hw).rows = byId i (b.rows.filter (fun r =>
      r.id ∉ winners.map DeltaRow.id) ++ aliveRows winners) :=
    (distinct_rows _).lookup_congr hu fun r => mem_compactParts b.sorted r
  have hbase : byId i (b.rows.filter fun r => r.id ∉ winners.map DeltaRow.id) =
      if i ∈ winners.map DeltaRow.id then none else byId i b.rows := lookup_without _
  have halive := byId_aliveRows hw i
  rw [hcongr]
  simp only [byId] at hbase halive ⊢
  rw [lookup_append, hbase, halive]
  rcases hd : deltaById i winners with _ | w
  · rw [if_neg (lookup_eq_none.mp hd)]
    simp
  · have hmem : i ∈ winners.map DeltaRow.id := by
      rw [← lookup_isSome]; simp only [deltaById] at hd; rw [hd]; rfl
    rw [if_pos hmem]
    simp

end OsmParquet.CompactByid
