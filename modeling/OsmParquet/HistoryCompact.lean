import OsmParquet.HistoryWindows

/-!
Folding the history tiers into the base.

Compaction rewrites every by-id part and every cell that the tiers have rows for, from the old rows
and the new ones, and keeps the others as they are. The parts own ranges of ids without gaps, so
all rows of an element meet in one file, and in a cell a tombstone stands for the state that left.
What a read finds before and after is then a matter of each rewritten file alone.
-/

namespace OsmParquet.HistoryCompact

open OsmParquet.KeyedList OsmParquet.Rows OsmParquet.Tiers OsmParquet.HistoryTiers
open OsmParquet.Timeline OsmParquet.Snapshots OsmParquet.HistoryWindows

variable {α : Type}

/-! ### By id -/

/-- The range of ids that a part owns, from the start of its own to that of the next. -/
structure IdRange where
  lo : Option ℤ
  hi : Option ℤ

def rangePred (x : IdRange) (i : ℤ) : Bool := (x.lo.all fun a => a ≤ i) && x.hi.all fun b => i < b

/-- The ranges of the parts from `p` on. -/
def rangesFrom (lo : Option ℤ) (p : HistoryPart α) :
    List (HistoryPart α) → List (IdRange × Option (HistoryPart α))
  | [] => [(⟨lo, none⟩, some p)]
  | q :: ps => (⟨lo, some q.minId⟩, some p) :: rangesFrom (some q.minId) q ps

/-- Ranges without a gap, each with the part that owns it. -/
def byidPartRanges : List (HistoryPart α) → List (IdRange × Option (HistoryPart α))
  | [] => [(⟨none, none⟩, none)]
  | p :: ps => rangesFrom none p ps

/-- The part with these rows; without a row it is not written. -/
def historyPartOf (rows : List (HistoryRow α)) : Option (HistoryPart α) :=
  match hlo : (rows.map HistoryRow.id).min?, hhi : (rows.map HistoryRow.id).max? with
  | some lo, some hi => some
    { minId := lo
      maxId := hi
      rows := rows
      le := (List.max?_eq_some_iff.mp hhi).2 lo (List.min?_eq_some_iff.mp hlo).1
      inRange := fun r hr => ⟨(List.min?_eq_some_iff.mp hlo).2 r.id (List.mem_map_of_mem hr),
        (List.max?_eq_some_iff.mp hhi).2 r.id (List.mem_map_of_mem hr)⟩ }
  | _, _ => none

/-- The old rows of a range. -/
def oldRows (x : IdRange × Option (HistoryPart α)) : List (HistoryRow α) :=
  x.2.elim [] HistoryPart.rows

/-- The tier rows of a range. -/
def newRows (new : List (HistoryRow α)) (x : IdRange × Option (HistoryPart α)) :
    List (HistoryRow α) := new.filter fun r => rangePred x.1 r.id

/-- A part is kept as it is if no tier row falls into its range, and else rewritten. -/
def compactHistoryPart (new : List (HistoryRow α)) (x : IdRange × Option (HistoryPart α)) :
    Option (HistoryPart α) :=
  if newRows new x = [] ∧ x.2.isSome then x.2
  else historyPartOf (leadValidTo windowKey (oldRows x ++ newRows new x))

/-! ### By cell -/

/-- The cell with these rows; without a row it has no file. -/
def historyCellOf (c : Cell) (rows : List (HistoryRow α)) (h : ∀ r ∈ rows, r.cell = some c) :
    Option (HistoryCell α) :=
  if rows = [] then none else some ⟨c, [rows], by simpa using h⟩

/-- The tier rows of a cell. -/
def newIn (new : List (HistoryRow α)) (c : Cell) : List (HistoryRow α) :=
  new.filter fun r => r.cell = some c

/-- The cells the tiers have rows for. -/
def touchedCells (new : List (HistoryRow α)) : List Cell := (new.filterMap HistoryRow.cell).dedup

/-! ### The by-id parts -/

section Parts

variable {p : HistoryPart α} {ps : List (HistoryPart α)} {lo : Option ℤ} {i : ℤ}

lemma rangePred_iff {x : IdRange} : rangePred x i = true ↔
    (∀ a, x.lo = some a → a ≤ i) ∧ ∀ b, x.hi = some b → i < b := by
  obtain ⟨_ | a, _ | b⟩ := x <;> simp [rangePred]

/-- No range reaches below the first. -/
lemma le_of_rangesFrom {a j : ℤ} (hs : (p :: ps).Pairwise fun p q => p.maxId < q.minId)
    (ha : a ≤ p.minId) {x : IdRange × Option (HistoryPart α)} (hx : x ∈ rangesFrom (some a) p ps)
    (hj : rangePred x.1 j = true) : a ≤ j := by
  induction ps generalizing p a with
  | nil =>
    rw [rangesFrom, List.mem_singleton] at hx
    subst hx
    exact (rangePred_iff.mp hj).1 a rfl
  | cons q ps ih =>
    rcases List.mem_cons.mp hx with rfl | hx
    · exact (rangePred_iff.mp hj).1 a rfl
    · have hlt : p.maxId < q.minId := (List.pairwise_cons.mp hs).1 q List.mem_cons_self
      have hle := p.le
      have hqj := ih (List.pairwise_cons.mp hs).2 le_rfl hx
      omega

/-- The ranges follow each other. -/
lemma pairwise_rangesFrom (hs : (p :: ps).Pairwise fun p q => p.maxId < q.minId) :
    (rangesFrom lo p ps).Pairwise fun x y =>
      ∀ i j, rangePred x.1 i = true → rangePred y.1 j = true → i < j := by
  induction ps generalizing p lo with
  | nil => exact List.pairwise_singleton _ _
  | cons q ps ih =>
    refine List.pairwise_cons.mpr ⟨?_, ih (List.pairwise_cons.mp hs).2⟩
    intro y hy i j hi hj
    have hqj := le_of_rangesFrom (List.pairwise_cons.mp hs).2 le_rfl hy hj
    have hiq := (rangePred_iff.mp hi).2 q.minId rfl
    omega

/-- Every id from the first range on is in one of them. -/
lemma exists_range (hi : ∀ a, lo = some a → a ≤ i) :
    ∃ x ∈ rangesFrom lo p ps, rangePred x.1 i = true := by
  induction ps generalizing p lo with
  | nil => exact ⟨_, List.mem_singleton_self _, rangePred_iff.mpr ⟨hi, by simp⟩⟩
  | cons q ps ih =>
    by_cases hq : i < q.minId
    · refine ⟨_, List.mem_cons_self, rangePred_iff.mpr ⟨hi, ?_⟩⟩
      intro b hb
      cases hb
      exact hq
    · obtain ⟨x, hx, hxi⟩ := @ih q (some q.minId) (by simpa using not_lt.mp hq)
      exact ⟨x, List.mem_cons_of_mem _ hx, hxi⟩

/-- A part lies in its range. -/
lemma part_inRange (hs : (p :: ps).Pairwise fun p q => p.maxId < q.minId)
    (hlo : ∀ a, lo = some a → a ≤ p.minId) {x : IdRange × Option (HistoryPart α)}
    (hx : x ∈ rangesFrom lo p ps) {q : HistoryPart α} (hq : x.2 = some q) :
    rangePred x.1 q.minId = true ∧ rangePred x.1 q.maxId = true := by
  induction ps generalizing p lo with
  | nil =>
    rw [rangesFrom, List.mem_singleton] at hx
    subst hx
    cases hq
    have hle := q.le
    refine ⟨rangePred_iff.mpr ⟨hlo, by simp⟩, rangePred_iff.mpr ⟨fun a ha => ?_, by simp⟩⟩
    exact (hlo a ha).trans hle
  | cons p' ps ih =>
    have hlt : p.maxId < p'.minId := (List.pairwise_cons.mp hs).1 p' List.mem_cons_self
    rcases List.mem_cons.mp hx with rfl | hx
    · cases hq
      have hle := q.le
      refine ⟨rangePred_iff.mpr ⟨hlo, fun b hb => ?_⟩,
        rangePred_iff.mpr ⟨fun a ha => ?_, fun b hb => ?_⟩⟩
      · cases hb
        omega
      · exact (hlo a ha).trans hle
      · cases hb
        exact hlt
    · exact ih (List.pairwise_cons.mp hs).2 (by simp) hx

lemma part_mem_ranges {q : HistoryPart α} (hq : q ∈ p :: ps) :
    ∃ x ∈ rangesFrom lo p ps, x.2 = some q := by
  induction ps generalizing p lo with
  | nil =>
    rw [List.mem_singleton.mp hq]
    exact ⟨_, List.mem_singleton_self _, rfl⟩
  | cons p' ps ih =>
    rcases List.mem_cons.mp hq with rfl | hq
    · exact ⟨_, List.mem_cons_self, rfl⟩
    · obtain ⟨x, hx, hxq⟩ := @ih p' (some p'.minId) hq
      exact ⟨x, List.mem_cons_of_mem _ hx, hxq⟩

lemma mem_of_ranges {x : IdRange × Option (HistoryPart α)} (hx : x ∈ rangesFrom lo p ps) :
    ∃ q ∈ p :: ps, x.2 = some q := by
  induction ps generalizing p lo with
  | nil =>
    rw [rangesFrom, List.mem_singleton] at hx
    exact ⟨p, List.mem_cons_self, by rw [hx]⟩
  | cons p' ps ih =>
    rcases List.mem_cons.mp hx with rfl | hx
    · exact ⟨p, List.mem_cons_self, rfl⟩
    · obtain ⟨q, hq, hxq⟩ := ih hx
      exact ⟨q, List.mem_cons_of_mem _ hq, hxq⟩

end Parts

section Byid

variable {old : HistoryParts α} {new : List (HistoryRow α)} {x : IdRange × Option (HistoryPart α)}

lemma pairwise_ranges (old : HistoryParts α) : (byidPartRanges old.parts).Pairwise fun x y =>
    ∀ i j, rangePred x.1 i = true → rangePred y.1 j = true → i < j := by
  have hs := old.sorted
  rcases hp : old.parts with _ | ⟨p, ps⟩
  · exact List.pairwise_singleton _ _
  · rw [hp] at hs
    exact pairwise_rangesFrom hs

/-- Every id is owned by a range. -/
lemma exists_owner (old : HistoryParts α) (i : ℤ) :
    ∃ x ∈ byidPartRanges old.parts, rangePred x.1 i = true := by
  rcases old.parts with _ | ⟨p, ps⟩
  · exact ⟨_, List.mem_singleton_self _, rfl⟩
  · exact exists_range (by simp)

lemma owned (hx : x ∈ byidPartRanges old.parts) {q : HistoryPart α} (hq : x.2 = some q) :
    q ∈ old.parts ∧ rangePred x.1 q.minId = true ∧ rangePred x.1 q.maxId = true := by
  have hs := old.sorted
  rcases hp : old.parts with _ | ⟨p, ps⟩
  · rw [hp, byidPartRanges, List.mem_singleton] at hx
    subst hx
    cases hq
  · rw [hp] at hx hs
    obtain ⟨q', hq', hxq'⟩ := mem_of_ranges hx
    rw [hq, Option.some.injEq] at hxq'
    exact ⟨hxq' ▸ hq', part_inRange hs (by simp) hx hq⟩

lemma rangePred_between {y : IdRange} {a b i : ℤ} (ha : rangePred y a = true)
    (hb : rangePred y b = true) (hai : a ≤ i) (hib : i ≤ b) : rangePred y i = true := by
  obtain ⟨hlo, -⟩ := rangePred_iff.mp ha
  obtain ⟨-, hhi⟩ := rangePred_iff.mp hb
  exact rangePred_iff.mpr ⟨fun c hc => (hlo c hc).trans hai, fun c hc => hib.trans_lt (hhi c hc)⟩

lemma oldRows_inRange (hx : x ∈ byidPartRanges old.parts) {r : HistoryRow α} (hr : r ∈ oldRows x) :
    rangePred x.1 r.id = true := by
  unfold oldRows at hr
  rcases hq : x.2 with _ | q
  · rw [hq] at hr
    cases hr
  · rw [hq] at hr
    obtain ⟨-, hlo, hhi⟩ := owned hx hq
    obtain ⟨h1, h2⟩ := q.inRange r hr
    exact rangePred_between hlo hhi h1 h2

lemma mem_rows_iff {r : HistoryRow α} :
    r ∈ old.rows ↔ ∃ x ∈ byidPartRanges old.parts, r ∈ oldRows x := by
  refine ⟨fun hr => ?_, ?_⟩
  · obtain ⟨q, hq, hrq⟩ := List.mem_flatMap.mp hr
    rcases hp : old.parts with _ | ⟨p, ps⟩
    · rw [hp] at hq
      cases hq
    · rw [hp] at hq
      obtain ⟨x, hx, hxq⟩ : ∃ x ∈ rangesFrom none p ps, x.2 = some q := part_mem_ranges hq
      exact ⟨x, hx, by rw [oldRows, hxq]; exact hrq⟩
  · rintro ⟨x, hx, hr⟩
    rcases hq : x.2 with _ | q
    · rw [oldRows, hq] at hr
      cases hr
    · rw [oldRows, hq] at hr
      exact List.mem_flatMap.mpr ⟨q, (owned hx hq).1, hr⟩

lemma rows_historyPartOf (rows : List (HistoryRow α)) :
    (historyPartOf rows).elim [] HistoryPart.rows = rows := by
  unfold historyPartOf
  split
  · rfl
  · rename_i h
    rcases rows with _ | ⟨r, rows⟩
    · rfl
    · have hne : (r :: rows).map HistoryRow.id ≠ [] := by simp
      obtain ⟨lo, hlo⟩ := Option.ne_none_iff_exists'.mp (mt List.min?_eq_none_iff.mp hne)
      obtain ⟨hi, hhi⟩ := Option.ne_none_iff_exists'.mp (mt List.max?_eq_none_iff.mp hne)
      exact absurd hhi (h lo hi hlo)

/-- The rows of a range after compaction. -/
lemma rows_compactHistoryPart (new : List (HistoryRow α)) (x : IdRange × Option (HistoryPart α)) :
    (compactHistoryPart new x).elim [] HistoryPart.rows =
      if newRows new x = [] then oldRows x else leadValidTo windowKey
        (oldRows x ++ newRows new x) := by
  unfold compactHistoryPart
  by_cases hn : newRows new x = []
  · rw [if_pos hn]
    rcases hx : x.2 with _ | q
    · simp [rows_historyPartOf, oldRows, hx, hn, leadValidTo]
    · simp [oldRows, hx, hn]
  · rw [if_neg hn, if_neg (fun h => hn h.1), rows_historyPartOf]

lemma mem_historyPartOf {rows : List (HistoryRow α)} {p : HistoryPart α}
    (h : historyPartOf rows = some p) :
    p.minId ∈ rows.map HistoryRow.id ∧ p.maxId ∈ rows.map HistoryRow.id := by
  unfold historyPartOf at h
  split at h
  · rename_i lo hi hlo hhi
    cases h
    exact ⟨(List.min?_eq_some_iff.mp hlo).1, (List.max?_eq_some_iff.mp hhi).1⟩
  · cases h

/-- What is written for a range lies in it. -/
lemma compactHistoryPart_inRange (hx : x ∈ byidPartRanges old.parts) {p : HistoryPart α}
    (hp : compactHistoryPart new x = some p) :
    rangePred x.1 p.minId = true ∧ rangePred x.1 p.maxId = true := by
  unfold compactHistoryPart at hp
  split at hp
  · exact (owned hx hp).2
  · have hin : ∀ i ∈ (leadValidTo windowKey (oldRows x ++ newRows new x)).map HistoryRow.id,
        rangePred x.1 i = true := by
      intro i hi
      obtain ⟨r, hr, rfl⟩ := List.mem_map.mp hi
      obtain ⟨y, hy, hyr⟩ := strip_mem_of_lead hr
      rw [← strip_id r, ← hyr, strip_id]
      rcases List.mem_append.mp hy with hold | hnew
      · exact oldRows_inRange hx hold
      · exact (List.mem_filter.mp hnew).2
    obtain ⟨h1, h2⟩ := mem_historyPartOf hp
    exact ⟨hin _ h1, hin _ h2⟩

/-- The by-id parts after compaction. -/
def compactHistoryParts (old : HistoryParts α) (new : List (HistoryRow α)) : HistoryParts α where
  parts := (byidPartRanges old.parts).filterMap (compactHistoryPart new)
  sorted := by
    refine List.Pairwise.filterMap (R := fun x y => (∀ i j, rangePred x.1 i = true →
      rangePred y.1 j = true → i < j) ∧ x ∈ byidPartRanges old.parts ∧ y ∈ byidPartRanges old.parts)
      _ ?_ ((pairwise_ranges old).imp_of_mem fun hx hy h => ⟨h, hx, hy⟩)
    rintro x y ⟨h, hx, hy⟩ p hp q hq
    exact h _ _ (compactHistoryPart_inRange hx hp).2 (compactHistoryPart_inRange hy hq).1

lemma mem_rows_compactHistoryParts {r : HistoryRow α} : r ∈ (compactHistoryParts old new).rows ↔
    ∃ x ∈ byidPartRanges old.parts, r ∈ (compactHistoryPart new x).elim [] HistoryPart.rows := by
  simp only [HistoryParts.rows, compactHistoryParts, List.mem_flatMap, List.mem_filterMap]
  refine ⟨?_, ?_⟩
  · rintro ⟨p, ⟨x, hx, hp⟩, hr⟩
    exact ⟨x, hx, by rw [hp]; exact hr⟩
  · rintro ⟨x, hx, hr⟩
    rcases hp : compactHistoryPart new x with _ | p
    · rw [hp] at hr
      cases hr
    · rw [hp] at hr
      exact ⟨p, ⟨x, hx, hp⟩, hr⟩

/-- Of two ranges only one owns an id. -/
lemma owner_unique {y : IdRange × Option (HistoryPart α)} {i : ℤ}
    (hx : x ∈ byidPartRanges old.parts) (hy : y ∈ byidPartRanges old.parts)
    (hxi : rangePred x.1 i = true) (hyi : rangePred y.1 i = true) : x = y := by
  by_contra hne
  have hsymm : ∀ a ∈ byidPartRanges old.parts, ∀ b ∈ byidPartRanges old.parts, a ≠ b →
      rangePred a.1 i = true → rangePred b.1 i = true → False := by
    intro a ha b hb hab hai hbi
    obtain ⟨k, hk, rfl⟩ := List.getElem_of_mem ha
    obtain ⟨l, hl, rfl⟩ := List.getElem_of_mem hb
    have hpw := List.pairwise_iff_getElem.mp (pairwise_ranges old)
    rcases lt_trichotomy k l with hkl | rfl | hlk
    · exact absurd (hpw k l hk hl hkl i i hai hbi) (lt_irrefl i)
    · exact hab rfl
    · exact absurd (hpw l k hl hk hlk i i hbi hai) (lt_irrefl i)
  exact hsymm x hx y hy hne hxi hyi

/-- A read by id is a read of the range that owns the id. -/
lemma mem_candidates_owner (hx : x ∈ byidPartRanges old.parts) {i : ℤ} (hi : rangePred x.1 i = true)
    (t : ℤ) (r : HistoryRow α) :
    r ∈ candidates t i old.rows new ↔ r ∈ candidates t i (oldRows x) (newRows new x) := by
  rw [mem_candidates, mem_candidates]
  refine and_congr_right fun hid => ?_
  have hold : r ∈ old.rows ↔ r ∈ oldRows x := by
    rw [mem_rows_iff]
    refine ⟨?_, fun h => ⟨x, hx, h⟩⟩
    rintro ⟨y, hy, hr⟩
    rwa [owner_unique hx hy hi (hid ▸ oldRows_inRange hy hr)]
  have hnew : r ∈ new ↔ r ∈ newRows new x := by
    simp [newRows, hid, hi]
  rw [hold, hnew]

lemma mem_candidates_compacted (hx : x ∈ byidPartRanges old.parts) {i : ℤ}
    (hi : rangePred x.1 i = true) (t : ℤ) (r : HistoryRow α) :
    r ∈ candidates t i (compactHistoryParts old new).rows [] ↔
      r ∈ candidates t i ((compactHistoryPart new x).elim [] HistoryPart.rows) [] := by
  rw [mem_candidates, mem_candidates]
  refine and_congr_right fun hid => ?_
  have hrows : r ∈ (compactHistoryParts old new).rows ↔
      r ∈ (compactHistoryPart new x).elim [] HistoryPart.rows := by
    rw [mem_rows_compactHistoryParts]
    refine ⟨?_, fun h => ⟨x, hx, h⟩⟩
    rintro ⟨y, hy, hr⟩
    rcases hp : compactHistoryPart new y with _ | p
    · rw [hp] at hr
      cases hr
    · have hr' := hr
      rw [hp] at hr'
      obtain ⟨h1, h2⟩ := p.inRange r hr'
      obtain ⟨h3, h4⟩ := compactHistoryPart_inRange hy hp
      rwa [owner_unique hx hy hi (hid ▸ rangePred_between h3 h4 h1 h2)]
  rw [hrows]

/-- **Reads by id stay the same exactly if no rewritten part loses anything.** -/
lemma byid_same_iff : (∀ t i, SameAnswers (candidates t i old.rows new)
      (candidates t i (compactHistoryParts old new).rows [])) ↔
    ∀ x ∈ byidPartRanges old.parts, newRows new x ≠ [] → Lossless (oldRows x) (newRows new x) := by
  refine ⟨fun h x hx hne => ?_, fun h t i => ?_⟩
  · refine rewritten_same_iff.mp fun t i => ?_
    by_cases hi : rangePred x.1 i = true
    · refine (h t i).congr (fun r => (mem_candidates_owner hx hi t r).symm) fun r => ?_
      rw [mem_candidates_compacted hx hi, rows_compactHistoryPart, if_neg hne]
    · -- the range has no row of the id at all
      have hnone : ∀ r ∈ oldRows x ++ newRows new x, r.id ≠ i := by
        intro r hr hid
        rcases List.mem_append.mp hr with hold | hnew
        · exact hi (hid ▸ oldRows_inRange hx hold)
        · exact hi (hid ▸ (List.mem_filter.mp hnew).2)
      refine ⟨fun r hr => ?_, fun hcand => ?_⟩
      · obtain ⟨hid, ⟨hl, -⟩ | ⟨hn, -⟩⟩ := mem_candidates.mp hr.1
        · obtain ⟨y, hy, hyr⟩ := strip_mem_of_lead hl
          exact absurd (by rw [← strip_id y, hyr, strip_id, hid]) (hnone y hy)
        · cases hn
      · obtain ⟨r, hr⟩ := List.exists_mem_of_ne_nil _ hcand
        obtain ⟨hmem, hid, -⟩ := mem_startedRows.mp (startedRows_of_candidates hr)
        exact absurd hid (hnone r hmem)
  · obtain ⟨x, hx, hi⟩ := exists_owner old i
    by_cases hne : newRows new x = []
    · refine (SameAnswers.rfl (a := candidates t i (oldRows x) (newRows new x))).congr
        (mem_candidates_owner hx hi t) fun r => ?_
      rw [mem_candidates_compacted hx hi, rows_compactHistoryPart, if_pos hne, hne]
    · refine (rewritten_same_iff.mpr (h x hx hne) t i).congr
        (mem_candidates_owner hx hi t) fun r => ?_
      rw [mem_candidates_compacted hx hi, rows_compactHistoryPart, if_neg hne]

end Byid

/-! ### The cells -/

section Cells

variable {old : HistoryCells α} {new : List (HistoryRow α)} {c : Cell}

lemma rowsOf_placed (old : HistoryCells α) {r : HistoryRow α} (hr : r ∈ old.rowsOf c) :
    r.cell = some c := by
  unfold HistoryCells.rowsOf at hr
  rcases hl : lookup HistoryCell.cell c old.cells with _ | e
  · rw [hl] at hr
    cases hr
  · rw [hl] at hr
    have hc := key_of_lookup hl
    rw [← hc]
    exact e.placed r hr

lemma lead_placed (old : HistoryCells α) (new : List (HistoryRow α)) (c : Cell) :
    ∀ r ∈ leadValidTo windowKey (old.rowsOf c ++ newIn new c), r.cell = some c := by
  intro r hr
  obtain ⟨x, hx, hxr⟩ := strip_mem_of_lead hr
  have hcell : r.cell = x.cell := (congrArg (fun r : HistoryRow α => r.cell) hxr).symm
  rw [hcell]
  rcases List.mem_append.mp hx with hold | hnew
  · exact rowsOf_placed old hold
  · simpa using (List.mem_filter.mp hnew).2

/-- A cell is kept as it is if the tiers have no row for it, and else rewritten. -/
def compactHistoryCell (old : HistoryCells α) (new : List (HistoryRow α)) (c : Cell) :
    Option (HistoryCell α) :=
  if c ∉ touchedCells new then (lookup HistoryCell.cell c old.cells).filter fun e => e.files ≠ []
  else historyCellOf c (leadValidTo windowKey (old.rowsOf c ++ newIn new c)) (lead_placed old new c)

lemma cell_compactHistoryCell {e : HistoryCell α} (h : compactHistoryCell old new c = some e) :
    e.cell = c := by
  unfold compactHistoryCell at h
  split at h
  · exact key_of_lookup (Option.filter_eq_some_iff.mp h).1
  · unfold historyCellOf at h
    split at h
    · cases h
    · cases h
      rfl

/-- The cells after compaction: those of the base and those the tiers touch. -/
def compactHistoryCells (old : HistoryCells α) (new : List (HistoryRow α)) : HistoryCells α where
  cells := (old.cells.map HistoryCell.cell ++ touchedCells new).dedup.filterMap
    (compactHistoryCell old new)
  once := by
    have hsub : ∀ l : List Cell,
        ((l.filterMap (compactHistoryCell old new)).map HistoryCell.cell).Sublist l := by
      intro l
      induction l with
      | nil => exact List.Sublist.slnil
      | cons c l ih =>
        rcases hc : compactHistoryCell old new c with _ | e
        · rw [List.filterMap_cons_none hc]
          exact ih.cons c
        · rw [List.filterMap_cons_some hc, List.map_cons, cell_compactHistoryCell hc]
          exact ih.cons_cons c
    exact (hsub _).nodup (List.nodup_dedup _)

lemma lookup_compacted (l : List Cell) (c : Cell) :
    lookup HistoryCell.cell c (l.filterMap (compactHistoryCell old new)) =
      if c ∈ l then compactHistoryCell old new c else none := by
  have hkey : ∀ c e, compactHistoryCell old new c = some e → e.cell = c := fun _ _ =>
    cell_compactHistoryCell
  split
  · exact lookup_filterMap_of_mem hkey ‹c ∈ l›
  · exact lookup_filterMap_of_not_mem hkey ‹c ∉ l›

lemma mem_touchedCells : c ∈ touchedCells new ↔ newIn new c ≠ [] := by
  rw [touchedCells, List.mem_dedup, List.mem_filterMap]
  refine ⟨?_, fun h => ?_⟩
  · rintro ⟨r, hr, hc⟩
    exact List.ne_nil_of_mem (List.mem_filter.mpr ⟨hr, by simpa using hc⟩)
  · obtain ⟨r, hr⟩ := List.exists_mem_of_ne_nil _ h
    obtain ⟨hmem, hc⟩ := List.mem_filter.mp hr
    exact ⟨r, hmem, by simpa using hc⟩

/-- The rows of a cell after compaction. -/
lemma rowsOf_compactHistoryCells (old : HistoryCells α) (new : List (HistoryRow α)) (c : Cell) :
    (compactHistoryCells old new).rowsOf c =
      if newIn new c = [] then old.rowsOf c else leadValidTo windowKey
        (old.rowsOf c ++ newIn new c) := by
  unfold HistoryCells.rowsOf
  rw [compactHistoryCells, lookup_compacted]
  simp only [List.mem_dedup, List.mem_append, mem_touchedCells]
  by_cases hn : newIn new c = []
  · have hnot : c ∉ touchedCells new := fun h => mem_touchedCells.mp h hn
    simp only [hn, ne_eq, not_true_eq_false, or_false, if_true]
    rw [compactHistoryCell, if_pos hnot]
    rcases hl : lookup HistoryCell.cell c old.cells with _ | e
    · simp
    · have hmem : c ∈ old.cells.map HistoryCell.cell := by
        rw [← lookup_isSome, hl]
        rfl
      rw [if_pos hmem]
      by_cases hf : e.files = []
      · simp [Option.filter, hf, HistoryCell.rows]
      · simp [Option.filter, hf]
  · have htouched : ¬ c ∉ touchedCells new := not_not.mpr (mem_touchedCells.mpr hn)
    simp only [hn, ne_eq, not_false_eq_true, or_true, if_true, if_false]
    rw [compactHistoryCell, if_neg htouched]
    unfold historyCellOf
    split
    · rename_i hempty
      exact hempty.symm
    · simp [HistoryCell.rows, HistoryCells.rowsOf]

lemma mem_candidates_cells (cells : List Cell) (t i : ℤ) (r : HistoryRow α) :
    r ∈ candidates t i (cells.flatMap old.rowsOf)
      (new.filter fun r => r.cell.any fun c => c ∈ cells) ↔
      r ∈ cells.flatMap fun c => candidates t i (old.rowsOf c) (newIn new c) := by
  simp only [mem_candidates, List.mem_flatMap, List.mem_filter, newIn, decide_eq_true_eq,
    Option.any_eq_true]
  refine ⟨?_, ?_⟩
  · rintro ⟨hid, ⟨⟨c, hc, hr⟩, hv⟩ | ⟨⟨hr, c, hrc, hc⟩, hv⟩⟩
    · exact ⟨c, hc, hid, Or.inl ⟨hr, hv⟩⟩
    · exact ⟨c, hc, hid, Or.inr ⟨⟨hr, hrc⟩, hv⟩⟩
  · rintro ⟨c, hc, hid, ⟨hr, hv⟩ | ⟨⟨hr, hrc⟩, hv⟩⟩
    · exact ⟨hid, Or.inl ⟨⟨c, hc, hr⟩, hv⟩⟩
    · exact ⟨hid, Or.inr ⟨⟨hr, c, hrc, hc⟩, hv⟩⟩

/-- **Reads by cell stay the same exactly if no rewritten cell loses anything.** -/
lemma spatial_same_iff :
    (∀ (cells : List Cell) t i, SameAnswers (candidates t i (cells.flatMap old.rowsOf)
        (new.filter fun r => r.cell.any fun c => c ∈ cells))
      (candidates t i (cells.flatMap (compactHistoryCells old new).rowsOf) [])) ↔
    ∀ c ∈ touchedCells new, Lossless (old.rowsOf c) (newIn new c) := by
  have hafter : ∀ (cells : List Cell) t i r, r ∈
      candidates t i (cells.flatMap (compactHistoryCells old new).rowsOf) [] ↔
      r ∈ cells.flatMap fun c => candidates t i ((compactHistoryCells old new).rowsOf c) [] := by
    intro cells t i r
    exact @mem_candidates_cells α (compactHistoryCells old new) [] cells t i r
  refine ⟨fun h c hc => ?_, fun h cells t i => ?_⟩
  · have hne := mem_touchedCells.mp hc
    refine rewritten_same_iff.mp fun t i => (h [c] t i).congr (fun r => ?_) fun r => ?_
    · rw [mem_candidates_cells, List.flatMap_singleton]
    · rw [hafter, List.flatMap_singleton, rowsOf_compactHistoryCells, if_neg hne]
  · refine (SameAnswers.flatMap (l := cells) (f := fun c => candidates t i (old.rowsOf c)
      (newIn new c)) (g := fun c => candidates t i ((compactHistoryCells old new).rowsOf c) [])
      fun c _ => ?_).congr (mem_candidates_cells cells t i) (hafter cells t i)
    rw [rowsOf_compactHistoryCells]
    by_cases hne : newIn new c = []
    · rw [if_pos hne, hne]
      exact SameAnswers.rfl
    · rw [if_neg hne]
      exact rewritten_same_iff.mpr (h c (mem_touchedCells.mpr hne)) t i

end Cells

/-! ### The history -/

/-- The history after compaction: all in the base, and no tiers. -/
def compactHistory (h : HistoryRoot) : HistoryRoot where
  byid t := compactHistoryParts (h.byid t) (tierByidRows h.tiers t)
  spatial t := compactHistoryCells (h.spatial t) (tierSpatialRows h.tiers t)
  tiers := History.empty

/-- A node from the second `10` on. -/
def placed : HistoryRow NodeCols :=
  ⟨1, some 1, 0, some 10, some 10, none, true, some [],
    some ⟨some ⟨0, 0⟩, ⟨none, [], 1, 1, some 10, none, ""⟩, 0⟩⟩

/-- The history of that node alone. -/
def lone (tiers : History) : HistoryRoot where
  byid
    | .node => ⟨[⟨1, 1, [placed], le_rfl, by decide⟩], by simp⟩
    | .way => ⟨[], List.Pairwise.nil⟩
    | .relation => ⟨[], List.Pairwise.nil⟩
  spatial
    | .node => ⟨[⟨[], [[placed]], by decide⟩], by simp [Distinct]⟩
    | .way => ⟨[], by simp [Distinct]⟩
    | .relation => ⟨[], by simp [Distinct]⟩
  tiers := tiers

/-- A run that deletes the node, at some second. -/
def deleting (t : ℤ) : HistoryRun where
  tiers := ⟨fun _ => [], 1, 1, some t⟩
  states
    | .node => [⟨⟨1, some 2, 0, some t, some t, none, false, some [], none⟩, some []⟩]
    | .way => []
    | .relation => []

/-- What the history tiers hold after that run. -/
def afterDeleting (t : ℤ) : History :=
  ((runsHistory ⟨Deltas.empty, History.empty⟩ [deleting t]).map Stacks.history).getD History.empty

end OsmParquet.HistoryCompact
