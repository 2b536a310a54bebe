import OsmParquet.FrontierSearch
import OsmParquet.HistoryBatch
import OsmParquet.Recurse
import OsmParquet.RelationBoxes

/-!
The minor rows of a run against the changes of members.

A way or relation that is not in the batch gets a minor row when it is touched. The touched ways are
those that the index of the base or a tier row names for a kept node, and the touched relations
those that the member indexes lead to, by ids without types and in a bounded number of rounds. So
there are minor rows for ways that have dropped the node, for relations that have another element
with the same id, and none for a relation too far above a change.
-/

namespace OsmParquet.MinorRows

open OsmParquet.KeyedList OsmParquet.Rows OsmParquet.Tiers OsmParquet.TierSteps OsmParquet.Updater
open OsmParquet.Resolves OsmParquet.PrevCells OsmParquet.RunSteps OsmParquet.OneCell
open OsmParquet.WayGeometry OsmParquet.RelationBoxes OsmParquet.HistoryTiers OsmParquet.Snapshots
open OsmParquet.HistoryBatch OsmParquet.FrontierSearch
open OsmParquet.Recurse (path)

/-! ### Changes -/

/-- The ids of a type in a batch. -/
def idsIn (k : Batch) (t : Typ) : List ℤ := (k t).map Change.id

/-- An element outside the batch is above a change: a way has a node of the batch, a relation has a
member of the batch or one that is above a change. -/
inductive Affected (s : Root) (k : Batch) : Typ → ℤ → Prop
  | way {i n : ℤ} {r : Row WayCols} : cur s .way i = some r → i ∉ idsIn k .way →
      n ∈ r.cols.refs → n ∈ idsIn k .node → Affected s k .way i
  | changed {i : ℤ} {r : Row RelationCols} {m : Member} : cur s .relation i = some r →
      i ∉ idsIn k .relation → m ∈ r.cols.members → m.ref ∈ idsIn k m.type → Affected s k .relation i
  | nested {i : ℤ} {r : Row RelationCols} {m : Member} : cur s .relation i = some r →
      i ∉ idsIn k .relation → m ∈ r.cols.members → Affected s k m.type m.ref →
        Affected s k .relation i

/-- The run writes a minor row for the element. -/
def WritesMinor (s : Root) (h : HistoryRoot) (f : Fetched) (t : Typ) (i : ℤ) : Prop :=
  ∃ x ∈ historyMinor s h f t (touchedIds s f t), x.row.id = i

/-! ### Links -/

/-- A member index names the relation `i` for an element with the id `j`. -/
def Link (s : Root) (j i : ℤ) : Prop := i ∈ parentRelations s [j]

/-- The relations of the batch, and those that are named for a node or way of the batch or for a way
above a change. -/
def Named (s : Root) (k : Batch) (i : ℤ) : Prop :=
  i ∈ idsIn k .relation ∨
    ∃ j, (j ∈ idsIn k .node ∨ j ∈ idsIn k .way ∨ Affected s k .way j) ∧ Link s j i

/-- The member indexes lead from the batch to the relation in at most nine steps. -/
def LedTo (s : Root) (k : Batch) (i : ℤ) : Prop := ∃ m ≤ 9, Steps (Named s k) (Link s) m i

/-- The indexes lead from the batch to what is above a change, and to nothing else outside of the
batch. -/
structure LeadsRight (s : Root) (k : Batch) : Prop where
  /-- A way that the base names for a node of the batch still has a node of the batch. -/
  ways : ∀ p ∈ s.base.nodeWay, ∀ x ∈ p.rows, x.1 ∈ idsIn k .node → (cur s .way x.2).isSome →
    x.2 ∉ idsIn k .way → Affected s k .way x.2
  /-- A relation that is led to has a member that is changed, with its type. -/
  relations : ∀ i, LedTo s k i → (cur s .relation i).isSome → i ∉ idsIn k .relation →
    Affected s k .relation i
  /-- No relation is too far above a change. -/
  near : ∀ i, Affected s k .relation i → LedTo s k i

/-! ### The touched set -/

section Touched

variable {s : Root} {f : Fetched} {i j : ℤ}

lemma mem_parentRelations_iff {ids : List ℤ} :
    i ∈ parentRelations s ids ↔ ∃ j ∈ ids, Link s j i := by
  unfold Link parentRelations
  simp only [List.mem_append, List.mem_map, List.mem_filter, List.any_eq_true, decide_eq_true_eq,
    List.mem_singleton]
  constructor
  · rintro (⟨r, ⟨hr, hid⟩, rfl⟩ | ⟨r, ⟨hr, m, hm, hid⟩, rfl⟩)
    · exact ⟨r.memberId, hid, .inl ⟨r, ⟨hr, rfl⟩, rfl⟩⟩
    · exact ⟨m.ref, hid, .inr ⟨r, ⟨hr, m, hm, rfl⟩, rfl⟩⟩
  · rintro ⟨j, hj, ⟨r, ⟨hr, rfl⟩, rfl⟩ | ⟨r, ⟨hr, m, hm, rfl⟩, rfl⟩⟩
    · exact .inl ⟨r, ⟨hr, hj⟩, rfl⟩
    · exact .inr ⟨r, ⟨hr, m, hm, hj⟩, rfl⟩

/-- The rounds over the member indexes. -/
lemma mem_closeRelations (n : ℕ) {ids : List ℤ} (hd : ids.Nodup) :
    i ∈ closeRelations s n ids ↔ ∃ m ≤ n + 1, Steps (fun x => x ∈ ids) (Link s) m i := by
  induction n generalizing ids with
  | zero =>
    constructor
    · exact fun hi => ⟨1, le_rfl, .one hi⟩
    · rintro ⟨m, hm, h⟩
      cases h with
      | one hi => exact hi
      | more h' _ =>
        have := h'.pos
        omega
  | succ n ih =>
    have hcomb : ∀ x, x ∈ (ids ++ parentRelations s ids).dedup ↔ x ∈ ids ∨ ∃ j, j ∈ ids ∧
        Link s j x := by
      intro x
      rw [List.mem_dedup, List.mem_append, mem_parentRelations_iff]
    rw [closeRelations]
    split_ifs with hlen
    · -- nothing is added, so that every step stays among the ids
      have hclosed : ∀ j x, j ∈ ids → Link s j x → x ∈ ids := by
        intro j x hj hx
        have hsub : ids ⊆ (ids ++ parentRelations s ids).dedup :=
          fun y hy => (hcomb y).mpr (.inl hy)
        have hperm := (List.subperm_of_subset hd hsub).perm_of_length_le hlen.le
        exact hperm.mem_iff.mpr ((hcomb x).mpr (.inr ⟨j, hj, hx⟩))
      constructor
      · exact fun hi => ⟨1, by omega, .one hi⟩
      · rintro ⟨m, -, h⟩
        exact h.invariant (P := fun x => x ∈ ids) (fun _ hx => hx) hclosed
    · rw [ih (List.nodup_dedup _)]
      simp only [hcomb]
      constructor
      · rintro ⟨m, hm, h⟩
        obtain ⟨m', hm', h'⟩ := h.of_further
        exact ⟨m', by omega, h'⟩
      · rintro ⟨m, hm, h⟩
        obtain ⟨m', hm', h'⟩ := h.to_further
        exact ⟨m', by omega, h'⟩

lemma isSome_of_touched (hg : Good s.deltas) {t : Typ} (hi : i ∈ touchedIds s f t)
    (hk : i ∉ idsIn (keptOf s f) t) : (cur s t i).isSome = true := by
  cases t with
  | node => cases hi
  | way => exact (((mem_wayIds hg).mp hi).resolve_left hk).2
  | relation => exact (((mem_relationIds hg).mp hi).resolve_left hk).2

/-- What is touched and not in the batch is resolved from its current row. -/
lemma exists_row (hg : Good s.deltas) {t : Typ} (hi : i ∈ touchedIds s f t)
    (hk : i ∉ idsIn (keptOf s f) t) : ∃ r, (tierRun s f).row t i = some r ∧ r.deleted = false := by
  have hno : changeById i (keptOf s f t) = none := lookup_eq_none.mpr hk
  obtain ⟨p, hp⟩ := Option.isSome_iff_exists.mp (isSome_of_touched hg hi hk)
  cases t with
  | node => cases hi
  | way =>
    have hin : i ∈ (workOf s f).wayIds := hi
    refine ⟨_, by rw [row_way hg, touchedRow, hno, if_pos hin, hp]; rfl, ?_⟩
    exact resolveWay_deleted _
  | relation =>
    have hin : i ∈ (workOf s f).relationIds := hi
    refine ⟨_, by rw [row_relation hg, touchedRow, hno, if_pos hin, hp]; rfl, ?_⟩
    exact resolveRelation_deleted _

/-- **The minor rows are those of what is touched and not in the batch.** -/
lemma writesMinor_iff (hg : Good s.deltas) {h : HistoryRoot} {t : Typ} :
    WritesMinor s h f t i ↔ i ∈ touchedIds s f t ∧ i ∉ idsIn (keptOf s f) t := by
  constructor
  · rintro ⟨x, hx, rfl⟩
    obtain ⟨r, c, -, -, -, ht, hk, rfl⟩ := (mem_historyMinor hg).mp hx
    exact ⟨ht, lookup_eq_none.mp hk⟩
  · rintro ⟨hi, hk⟩
    obtain ⟨r, hr, hd⟩ := exists_row hg hi hk
    have hid : r.id = i := key_of_lookup hr
    subst hid
    obtain ⟨hc, -⟩ := (resolvedFor_resolvedOf hg f).live t r (mem_of_lookup hr) hd
    obtain ⟨c, hc⟩ := Option.isSome_iff_exists.mp hc
    exact ⟨_, (mem_historyMinor hg).mpr ⟨r, c, hr, hd, hc, hi, lookup_eq_none.mpr hk, rfl⟩, rfl⟩

end Touched

/-! ### Ways -/

section Ways

variable {s : Root} {f : Fetched} {k : Batch} {i : ℤ}

lemma exists_of_mem_baseParentWays {ids : List ℤ} (hi : i ∈ baseParentWays s ids) :
    ∃ p ∈ s.base.nodeWay, ∃ x ∈ p.rows, x.1 ∈ ids ∧ x.2 = i := by
  unfold baseParentWays at hi
  split at hi
  · obtain ⟨x, hx, heq⟩ := List.mem_filterMap.mp hi
    obtain ⟨p, hp, hrow⟩ := List.mem_flatMap.mp hx
    split_ifs at heq with hin
    exact ⟨p, (List.mem_filter.mp hp).1, x, hrow, hin, Option.some.inj heq⟩
  · cases hi

/-- A way of the tiers is found by its own refs. -/
lemma affected_of_mem_deltaParentWays (hg : Good s.deltas)
    (hi : i ∈ deltaParentWays s (idsIn k .node)) (hk : i ∉ idsIn k .way) : Affected s k .way i := by
  obtain ⟨r, hr, rfl⟩ := List.mem_map.mp hi
  obtain ⟨halive, hrefs⟩ := List.mem_filter.mp hr
  obtain ⟨n, hn, hin⟩ := List.any_eq_true.mp hrefs
  exact .way (cur_of_mem_alive hg halive) hk hn (of_decide_eq_true hin)

lemma Affected.isSome {t : Typ} (h : Affected s k t i) :
    (cur s t i).isSome = true ∧ i ∉ idsIn k t := by
  cases h with
  | way hc hk => exact ⟨Option.isSome_of_eq_some hc, hk⟩
  | changed hc hk => exact ⟨Option.isSome_of_eq_some hc, hk⟩
  | nested hc hk => exact ⟨Option.isSome_of_eq_some hc, hk⟩

lemma touched_of_affected (hg : Good s.deltas) (hn : NodeWayCovers s.base)
    (h : Affected s (keptOf s f) .way i) : i ∈ touchedIds s f .way := by
  cases h with
  | way hc hk href hin =>
    exact (mem_wayIds hg).mpr (.inr ⟨mem_parentWays hg hn hc href hin, Option.isSome_of_eq_some hc⟩)

/-- The minor rows of ways are right if and only if the base names no way for a node that it has
dropped. -/
lemma ways_iff (hg : Good s.deltas) (hn : NodeWayCovers s.base) {h : HistoryRoot} :
    (∀ i, WritesMinor s h f .way i ↔ Affected s (keptOf s f) .way i) ↔
      ∀ p ∈ s.base.nodeWay, ∀ x ∈ p.rows, x.1 ∈ idsIn (keptOf s f) .node → (cur s .way x.2).isSome →
        x.2 ∉ idsIn (keptOf s f) .way → Affected s (keptOf s f) .way x.2 := by
  constructor
  · intro hall p hp x hx hin hex hk
    refine (hall x.2).mp ((writesMinor_iff hg).mpr ⟨(mem_wayIds hg).mpr (.inr ⟨?_, hex⟩), hk⟩)
    exact List.mem_append_left _ (mem_baseParentWays ⟨p, hp, hx⟩ hin)
  · intro hright i
    rw [writesMinor_iff hg]
    refine ⟨fun ⟨hi, hk⟩ => ?_, fun ha => ⟨touched_of_affected hg hn ha, ha.isSome.2⟩⟩
    obtain ⟨hpar, hex⟩ := ((mem_wayIds hg).mp hi).resolve_left hk
    rcases List.mem_append.mp hpar with hb | hd
    · obtain ⟨p, hp, x, hx, hin, rfl⟩ := exists_of_mem_baseParentWays hb
      exact hright p hp x hx hin hex hk
    · exact affected_of_mem_deltaParentWays hg hd hk

end Ways

/-! ### Relations -/

section Relations

variable {s : Root} {f : Fetched} {h : HistoryRoot} {i : ℤ}

lemma mem_wayIds_of_right (hg : Good s.deltas)
    (hways : ∀ i, WritesMinor s h f .way i ↔ Affected s (keptOf s f) .way i) {j : ℤ} :
    j ∈ (workOf s f).wayIds ↔ j ∈ idsIn (keptOf s f) .way ∨ Affected s (keptOf s f) .way j := by
  rw [← hways, writesMinor_iff hg]
  constructor
  · intro hj
    by_cases hk : j ∈ idsIn (keptOf s f) .way
    · exact .inl hk
    · exact .inr ⟨hj, hk⟩
  · rintro (hj | hj)
    · exact keptIds_subset_wayIds hj
    · exact hj.1

lemma mem_seed (hg : Good s.deltas)
    (hways : ∀ i, WritesMinor s h f .way i ↔ Affected s (keptOf s f) .way i) :
    i ∈ Work.seed (workOf s f) ↔ Named s (keptOf s f) i := by
  rw [Work.seed, List.mem_dedup, List.mem_append, List.mem_append, mem_parentRelations_iff,
    mem_parentRelations_iff, or_assoc]
  refine or_congr Iff.rfl ?_
  simp only [mem_wayIds_of_right hg hways]
  constructor
  · rintro (⟨j, hj, hl⟩ | ⟨j, hj, hl⟩)
    · exact ⟨j, .inl hj, hl⟩
    · exact ⟨j, .inr hj, hl⟩
  · rintro ⟨j, hj | hj, hl⟩
    · exact .inl ⟨j, hj, hl⟩
    · exact .inr ⟨j, hj, hl⟩

/-- With the right ways the minor rows of relations are where the indexes lead to. -/
lemma writesMinor_relation (hg : Good s.deltas)
    (hways : ∀ i, WritesMinor s h f .way i ↔ Affected s (keptOf s f) .way i) :
    WritesMinor s h f .relation i ↔ LedTo s (keptOf s f) i ∧ (cur s .relation i).isSome = true ∧
      i ∉ idsIn (keptOf s f) .relation := by
  have hclose : i ∈ closeRelations s 8 (Work.seed (workOf s f)) ↔ LedTo s (keptOf s f) i := by
    have hd : (Work.seed (workOf s f)).Nodup := List.nodup_dedup _
    rw [mem_closeRelations 8 hd]
    simp only [mem_seed hg hways]
    rfl
  rw [writesMinor_iff hg]
  constructor
  · rintro ⟨hi, hk⟩
    obtain ⟨hc, hex⟩ := ((mem_relationIds hg).mp hi).resolve_left hk
    exact ⟨hclose.mp hc, hex, hk⟩
  · rintro ⟨hl, hex, hk⟩
    exact ⟨(mem_relationIds hg).mpr (.inr ⟨hclose.mpr hl, hex⟩), hk⟩

end Relations

/-- **The minor rows of a run mean changes of members if and only if the indexes lead right.** -/
theorem minor_rows_iff (b : Base) (hn : NodeWayCovers b) (fs : List Fetched) (h : HistoryRoot)
    (f : Fetched) :
    (∀ t ≠ .node, ∀ i, WritesMinor (runs (fresh b) fs) h f t i ↔
        Affected (runs (fresh b) fs) (keptOf (runs (fresh b) fs) f) t i) ↔
      LeadsRight (runs (fresh b) fs) (keptOf (runs (fresh b) fs) f) := by
  have hg := good_runs (good_fresh b) fs
  have hcovers : NodeWayCovers (runs (fresh b) fs).base := by rw [base_runs]; exact hn
  constructor
  · intro hall
    have hways := hall .way (by decide)
    have hrels := hall .relation (by decide)
    refine ⟨(ways_iff hg hcovers).mp hways, fun i hl hex hk => ?_, fun i ha => ?_⟩
    · exact (hrels i).mp ((writesMinor_relation hg hways).mpr ⟨hl, hex, hk⟩)
    · exact ((writesMinor_relation hg hways).mp ((hrels i).mpr ha)).1
  · intro hright t ht i
    have hways := (ways_iff (h := h) hg hcovers).mpr hright.ways
    cases t with
    | node => exact absurd rfl ht
    | way => exact hways i
    | relation =>
      rw [writesMinor_relation hg hways]
      exact ⟨fun ⟨hl, hex, hk⟩ => hright.relations i hl hex hk,
        fun ha => ⟨hright.near i ha, ha.isSome⟩⟩

/-! ### Nodes that move -/

/-- A history without rows. -/
def noHistory : HistoryRoot := ⟨fun _ => .empty, fun _ => .empty, .empty⟩

/-- The node `n` moves. -/
def moves (n : ℤ) : Fetched := ⟨[diff 2 [change n 2 (some ⟨5, 5⟩)] [] []], some 60⟩

lemma idsIn_moves (t : Typ) : idsIn (keptOf (fresh path.base) (moves 20)) t =
    match t with
    | .node => [20]
    | _ => [] := by
  cases t <;> decide

lemma affected_way_path {i : ℤ} (h : Affected (fresh path.base)
    (keptOf (fresh path.base) (moves 20)) .way i) : i = 1 := by
  obtain ⟨r, hr⟩ := Option.isSome_iff_exists.mp h.isSome.1
  obtain ⟨hmem, rfl⟩ := mem_of_cur _ hr
  simp only [path, List.map_cons, List.map_nil, List.mem_singleton] at hmem
  rw [hmem]
  rfl

/-- No relation is above the second node. -/
lemma not_affected_relation_path {i : ℤ} :
    ¬ Affected (fresh path.base) (keptOf (fresh path.base) (moves 20)) .relation i := by
  have hmembers : ∀ {i r}, cur (fresh path.base) .relation i = some r →
      ∀ m ∈ r.cols.members, m = ⟨.node, 10, ""⟩ := by
    intro i r hr m hm
    have hmem := (mem_of_cur _ hr).1
    simp only [path, List.map_cons, List.map_nil, List.mem_singleton] at hmem
    rw [hmem] at hm
    exact List.mem_singleton.mp hm
  intro h
  cases h with
  | changed hc hk hm hin =>
    rw [hmembers hc _ hm, idsIn_moves] at hin
    simp at hin
  | nested hc hk hm hin =>
    rw [hmembers hc _ hm] at hin
    cases hin

/-- The second node of the way is moved, and both indexes lead right. -/
lemma leadsRight_path : LeadsRight (fresh path.base) (keptOf (fresh path.base) (moves 20)) where
  ways := by
    have hways : ∀ p ∈ (fresh path.base).base.nodeWay, ∀ x ∈ p.rows, x.2 = 1 := by decide
    intro p hp x hx _ _ hk
    rw [hways p hp x hx] at hk ⊢
    have hcur : cur (fresh path.base) .way 1 =
        some ((way 1 [10, 20] [⟨0, 0⟩, ⟨10, 20⟩]).map WaySpatialCols.byid) := by
      decide
    refine .way hcur hk (n := 20) (by decide) ?_
    rw [idsIn_moves]
    decide
  relations := by
    have hnamed : ∀ i, ¬ Named (fresh path.base) (keptOf (fresh path.base) (moves 20)) i := by
      have hnode : parentRelations (fresh path.base) [20] = [] := by decide
      have hway : parentRelations (fresh path.base) [1] = [] := by decide
      rintro i (hi | ⟨j, hj | hj | hj, hl⟩)
      · rw [idsIn_moves] at hi
        cases hi
      · rw [idsIn_moves] at hj
        rw [List.mem_singleton.mp hj, Link, hnode] at hl
        cases hl
      · rw [idsIn_moves] at hj
        cases hj
      · rw [affected_way_path hj, Link, hway] at hl
        cases hl
    rintro i ⟨m, -, hsteps⟩
    exact (hsteps.invariant (P := fun _ => False) hnamed fun _ _ hf _ => hf).elim
  near := fun i hi => (not_affected_relation_path hi).elim

/-- The way gets a minor row, and nothing else does. -/
theorem minor_rows_path : NodeWayCovers path.base ∧ ∀ t ≠ .node, ∀ i,
    WritesMinor (runs (fresh path.base) []) noHistory (moves 20) t i ↔
      Affected (runs (fresh path.base) []) (keptOf (runs (fresh path.base) []) (moves 20)) t i :=
  ⟨nodeWayCovers _,
    (minor_rows_iff path.base (nodeWayCovers _) [] noHistory (moves 20)).mpr leadsRight_path⟩

/-- The way gets a minor row for a node that it has dropped. -/
theorem minor_row_of_dropped_node : ¬ ∀ (b : Base) (_ : NodeWayCovers b) (fs : List Fetched)
    (h : HistoryRoot) (f : Fetched), ∀ t ≠ .node, ∀ i, WritesMinor (runs (fresh b) fs) h f t i ↔
      Affected (runs (fresh b) fs) (keptOf (runs (fresh b) fs) f) t i := by
  intro hall
  have hiff : WritesMinor Recurse.rerouted noHistory (moves 10) .way 1 ↔ _ :=
    hall path.base (nodeWayCovers _) _ noHistory (moves 10) .way (by decide) 1
  have hg : Good Recurse.rerouted.deltas := good_runs (good_fresh _) _
  have hwrites := (writesMinor_iff (f := moves 10) (i := 1) (t := .way) (h := noHistory) hg).mpr
    (by decide)
  have hrefs : (cur Recurse.rerouted .way 1).map (fun r => r.cols.refs) = some [20, 30] := by
    decide
  have hnodes : idsIn (keptOf Recurse.rerouted (moves 10)) .node = [10] := by decide
  cases hiff.mp hwrites with
  | way hc hk href hin =>
    have hc' := congrArg (Option.map fun r => r.cols.refs) hc
    rw [Option.map_some] at hc'
    obtain hr := Option.some.inj (hrefs.symm.trans hc')
    have hnode := List.mem_singleton.mp (hnodes ▸ hin)
    rw [← hr, hnode] at href
    simp at href

end OsmParquet.MinorRows
