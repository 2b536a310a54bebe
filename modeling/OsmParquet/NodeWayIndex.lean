import OsmParquet.ByidLookup
import OsmParquet.WayGeometry

/-!
The index from nodes to ways.

The index has a row for every ref of every way. The raw pass writes its rows in the order of the
nodes and cuts them into parts by number, so the rows of one node may end a part and begin the
next. Compaction takes the nodes whose ways have changed, removes their rows and writes them
anew into one part for each node. That a node has one part is what the lookup of the part takes
for granted, and a base without ways has no part at all.
-/

namespace OsmParquet.NodeWayIndex

open OsmParquet.KeyedList OsmParquet.Rows OsmParquet.Tiers OsmParquet.TierSteps OsmParquet.ByidReads
open OsmParquet.CompactByid OsmParquet.PartFiles OsmParquet.Updater OsmParquet.Resolves
open OsmParquet.PrevCells OsmParquet.SpatialReads OsmParquet.RunSteps OsmParquet.OneCell
open OsmParquet.WayGeometry

/-! ### The build of the index -/

/-- A part with these rows; without a row it is not written. -/
def indexPartOf (rows : List (ℤ × ℤ)) : Option IndexPart :=
  match hlo : (rows.map Prod.fst).min?, hhi : (rows.map Prod.fst).max? with
  | some lo, some hi => some
    { minId := lo
      maxId := hi
      rows := rows
      inRange := fun r hr => ⟨(List.min?_eq_some_iff.mp hlo).2 r.1 (List.mem_map_of_mem hr),
        (List.max?_eq_some_iff.mp hhi).2 r.1 (List.mem_map_of_mem hr)⟩ }
  | _, _ => none

/-- The refs of some ways, each with the way. -/
def nodeWayPairs (ways : List (Row WayCols)) : List (ℤ × ℤ) :=
  ways.flatMap fun r => r.cols.refs.map fun n => (n, r.id)

def nBuckets : ℕ := 256
def bucketShift : ℕ := 26
def nodeWayPartRows : ℕ := 8000000

/-- The bucket of a node id, which is taken for an unsigned number. -/
def bucketFor (nodeId : ℤ) : ℕ := (nodeId % 2 ^ 64).toNat / 2 ^ bucketShift % nBuckets

/-- The rows of the index: one bucket after the other, each in its order. -/
def sortedPairs (ways : List (Row WayCols)) : List (ℤ × ℤ) :=
  (List.range nBuckets).flatMap fun b =>
    ((nodeWayPairs ways).filter fun p => bucketFor p.1 = b).insertionSort fun x y =>
      toLex x ≤ toLex y

def buildNodeWayIndex (ways : List (Row WayCols)) : List IndexPart :=
  (writeParts nodeWayPartRows ByidLookup.batchRows (sortedPairs ways)).filterMap indexPartOf

section Build

variable {rows : List (ℤ × ℤ)} {x : ℤ × ℤ}

lemma rows_indexPartOf : (∃ p, indexPartOf rows = some p ∧ x ∈ p.rows) ↔ x ∈ rows := by
  constructor
  · rintro ⟨p, hp, hx⟩
    unfold indexPartOf at hp
    split at hp
    · cases hp
      exact hx
    · cases hp
  · intro hx
    have hne : rows.map Prod.fst ≠ [] := by simpa using List.ne_nil_of_mem hx
    obtain ⟨lo, hlo⟩ := Option.isSome_iff_exists.mp (List.isSome_min?_of_ne_nil hne)
    obtain ⟨hi, hhi⟩ := Option.isSome_iff_exists.mp (List.isSome_max?_of_ne_nil hne)
    unfold indexPartOf
    split
    · exact ⟨_, rfl, hx⟩
    · rename_i h
      exact absurd hhi (h lo hi hlo)

lemma mem_nodeWayPairs {ways : List (Row WayCols)} {n w : ℤ} :
    (n, w) ∈ nodeWayPairs ways ↔ ∃ r ∈ ways, r.id = w ∧ n ∈ r.cols.refs := by
  simp only [nodeWayPairs, List.mem_flatMap, List.mem_map, Prod.mk.injEq]
  constructor
  · rintro ⟨r, hr, n', hn, rfl, rfl⟩
    exact ⟨r, hr, rfl, hn⟩
  · rintro ⟨r, hr, rfl, hn⟩
    exact ⟨r, hr, n, hn, rfl, rfl⟩

lemma mem_sortedPairs {ways : List (Row WayCols)} :
    x ∈ sortedPairs ways ↔ x ∈ nodeWayPairs ways := by
  simp only [sortedPairs, List.mem_flatMap, List.mem_range, List.mem_insertionSort, List.mem_filter,
    decide_eq_true_eq]
  constructor
  · rintro ⟨b, -, hx, -⟩
    exact hx
  · intro hx
    exact ⟨bucketFor x.1, Nat.mod_lt _ (by decide), hx, rfl⟩

end Build

/-- The pairs that the parts of an index have. -/
def HasPair (parts : List IndexPart) (n w : ℤ) : Prop := ∃ p ∈ parts, (n, w) ∈ p.rows

/-- The index has the refs of the ways and nothing else. -/
def IndexExact (parts : List IndexPart) (ways : List (Row WayCols)) : Prop :=
  ∀ n w, HasPair parts n w ↔ (n, w) ∈ nodeWayPairs ways

/-- The raw pass writes an exact index. -/
theorem indexExact_build (ways : List (Row WayCols)) :
    IndexExact (buildNodeWayIndex ways) ways := by
  intro n w
  have hflat := (writeParts_spec nodeWayPartRows ByidLookup.batchRows (sortedPairs ways)).1
  rw [← mem_sortedPairs, ← hflat, List.mem_flatten]
  constructor
  · rintro ⟨p, hp, hx⟩
    obtain ⟨rows, hrows, hpart⟩ := List.mem_filterMap.mp hp
    exact ⟨rows, hrows, rows_indexPartOf.mp ⟨p, hpart, hx⟩⟩
  · rintro ⟨rows, hrows, hx⟩
    obtain ⟨p, hpart, hxp⟩ := rows_indexPartOf.mpr hx
    exact ⟨p, List.mem_filterMap.mpr ⟨rows, hrows, hpart⟩, hxp⟩

/-! ### Compaction of the index -/

/-- The parts that have a node in their range. -/
def partsWith (parts : List IndexPart) (n : ℤ) : List (IndexPart × ℕ) :=
  parts.zipIdx.filter fun p => p.1.minId ≤ n ∧ n ≤ p.1.maxId

/-- The part of a node: the one with the node in its range, else the nearest part below, else the
first. -/
def targetIndexPart (parts : List IndexPart) (n : ℤ) : ℕ :=
  (((partsWith parts n).head?.or
    ((parts.zipIdx.filter fun p => p.1.maxId < n).maxOn? fun p => p.1.maxId)).map Prod.snd).getD 0

/-- The nodes of the ways that the tiers change, before and after, and the nodes that they
change. -/
def touchedNodeIds (s : Root) : List ℤ :=
  (((s.base.byid .way).rows.filter fun r => r.id ∈ (rawView s.deltas .way).map DeltaRow.id).flatMap
      (fun r => r.cols.refs) ++
    (aliveView s.deltas .way).flatMap (fun r => r.cols.refs) ++
    (rawView s.deltas .node).map DeltaRow.id).dedup

def newNodeWayPairs (s : Root) : List (ℤ × ℤ) :=
  (nodeWayPairs ((Compact.compact s).byid .way).rows).filter fun p => p.1 ∈ touchedNodeIds s

def indexPartRows (s : Root) (p : IndexPart × ℕ) : List (ℤ × ℤ) :=
  (p.1.rows.filter fun x => x.1 ∉ touchedNodeIds s) ++
    (newNodeWayPairs s).filter fun x => targetIndexPart s.base.nodeWay x.1 = p.2

def compactIndexPart (s : Root) (p : IndexPart × ℕ) : Option IndexPart :=
  if p.2 ∈ (touchedNodeIds s).map (targetIndexPart s.base.nodeWay) then indexPartOf
    (indexPartRows s p)
  else some p.1

/-- The index of the new generation; `none` when the query fails that looks up the part of each
node, as it must give one row. -/
def compactNodeWayIndex (s : Root) : Option (List IndexPart) :=
  if s.base.nodeWay = [] then some []
  else if touchedNodeIds s = [] then some s.base.nodeWay
  else if ∃ n ∈ touchedNodeIds s, 1 < (partsWith s.base.nodeWay n).length then none
  else some (s.base.nodeWay.zipIdx.filterMap (compactIndexPart s))

/-- The parts of an index whose nodes can be in the range. -/
def indexPartsForRange (parts : List IndexPart) (lo hi : ℤ) : List IndexPart :=
  parts.filter fun p => p.maxId ≥ lo ∧ p.minId ≤ hi

/-! ### What the new parts have -/

section Compaction

variable {s : Root} {n w : ℤ}

lemma mem_touchedNodeIds : n ∈ touchedNodeIds s ↔
    (∃ r ∈ (s.base.byid .way).rows, r.id ∈ (rawView s.deltas .way).map DeltaRow.id ∧
      n ∈ r.cols.refs) ∨ (∃ r ∈ aliveView s.deltas .way, n ∈ r.cols.refs) ∨
        n ∈ (rawView s.deltas .node).map DeltaRow.id := by
  simp only [touchedNodeIds, List.mem_dedup, List.mem_append, List.mem_flatMap, List.mem_filter,
    decide_eq_true_eq, or_assoc, and_assoc]

/-- Away from the touched nodes the refs are the same before and after. -/
lemma pair_of_untouched (hn : n ∉ touchedNodeIds s) :
    (n, w) ∈ nodeWayPairs ((Compact.compact s).byid .way).rows ↔
      (n, w) ∈ nodeWayPairs (s.base.byid .way).rows := by
  rw [mem_touchedNodeIds] at hn
  have hrows : ∀ r, r ∈ (compactParts (s.base.byid .way).parts (rawView s.deltas .way)
      (Compact.distinct_rawView _ _)).flatMap ByidPart.rows ↔ _ := fun r =>
    mem_compactParts (s.base.byid .way).sorted r
  rw [mem_nodeWayPairs, mem_nodeWayPairs]
  constructor
  · rintro ⟨r, hr, hid, href⟩
    rcases List.mem_append.mp ((hrows r).mp hr) with hold | hnew
    · exact ⟨r, (List.mem_filter.mp hold).1, hid, href⟩
    · exact absurd (Or.inr (Or.inl ⟨r, hnew, href⟩)) hn
  · rintro ⟨r, hr, hid, href⟩
    refine ⟨r, (hrows r).mpr (List.mem_append_left _ (List.mem_filter.mpr ⟨hr, ?_⟩)), hid, href⟩
    rw [decide_eq_true_eq]
    exact fun hin => hn (Or.inl ⟨r, hr, hin, href⟩)

lemma mem_indexPartRows {p : IndexPart × ℕ} : (n, w) ∈ indexPartRows s p ↔
    ((n, w) ∈ p.1.rows ∧ n ∉ touchedNodeIds s) ∨
      (n ∈ touchedNodeIds s ∧ (n, w) ∈ nodeWayPairs ((Compact.compact s).byid .way).rows ∧
        targetIndexPart s.base.nodeWay n = p.2) := by
  simp only [indexPartRows, newNodeWayPairs, List.mem_append, List.mem_filter, decide_eq_true_eq]
  tauto

/-- A node that lies in one part at most, and in this one, belongs to it. -/
lemma target_of_mem {parts : List IndexPart} (hone : (partsWith parts n).length ≤ 1) {p : IndexPart}
    {i : ℕ} (hp : (p, i) ∈ parts.zipIdx) (hr : p.minId ≤ n ∧ n ≤ p.maxId) :
    targetIndexPart parts n = i := by
  have hmem : (p, i) ∈ partsWith parts n := List.mem_filter.mpr ⟨hp, by simpa using hr⟩
  rcases hh : partsWith parts n with _ | ⟨q, _ | ⟨q', l⟩⟩
  · rw [hh] at hmem
    cases hmem
  · rw [hh, List.mem_singleton] at hmem
    rw [targetIndexPart, hh, ← hmem]
    rfl
  · rw [hh] at hone
    simp at hone

/-- A node belongs to a part of the index, if it has one. -/
lemma exists_target {parts : List IndexPart} (hne : parts ≠ []) (n : ℤ) :
    ∃ p, (p, targetIndexPart parts n) ∈ parts.zipIdx := by
  rcases hh : (partsWith parts n).head? with _ | q
  · rcases hb : (parts.zipIdx.filter fun p => p.1.maxId < n).maxOn? fun p => p.1.maxId with _ | q
    · obtain ⟨p, l, rfl⟩ := List.exists_cons_of_ne_nil hne
      refine ⟨p, ?_⟩
      rw [targetIndexPart, hh, hb]
      simp
    · refine ⟨q.1, ?_⟩
      rw [targetIndexPart, hh, hb]
      exact (List.mem_filter.mp (List.maxOn?_mem hb)).1
  · refine ⟨q.1, ?_⟩
    rw [targetIndexPart, hh]
    exact (List.mem_filter.mp (List.mem_of_head? hh)).1

/-- A pair in a new part is of an untouched node, or one of the new pairs. -/
lemma pair_of_new (hone : ∀ n ∈ touchedNodeIds s, (partsWith s.base.nodeWay n).length ≤ 1)
    {p : IndexPart × ℕ} (hp : p ∈ s.base.nodeWay.zipIdx) {q : IndexPart}
    (hq : compactIndexPart s p = some q) (hx : (n, w) ∈ q.rows) :
    (n ∉ touchedNodeIds s ∧ (n, w) ∈ p.1.rows) ∨
      (n, w) ∈ nodeWayPairs ((Compact.compact s).byid .way).rows := by
  unfold compactIndexPart at hq
  split at hq
  · rcases mem_indexPartRows.mp (rows_indexPartOf.mp ⟨q, hq, hx⟩) with ⟨hold, hn⟩ | ⟨-, hnew, -⟩
    · exact Or.inl ⟨hn, hold⟩
    · exact Or.inr hnew
  · rename_i huntouched
    cases hq
    -- a touched node with rows here would have made this part its target
    refine Or.inl ⟨fun hn => huntouched ?_, hx⟩
    exact List.mem_map.mpr ⟨n, hn, target_of_mem (hone n hn) hp (p.1.inRange _ hx)⟩

/-- **The new parts have the refs of the compacted ways.** -/
lemma indexExact_compact (hex : IndexExact s.base.nodeWay (s.base.byid .way).rows)
    (hne : s.base.nodeWay ≠ [])
    (hone : ∀ n ∈ touchedNodeIds s, (partsWith s.base.nodeWay n).length ≤ 1) :
    IndexExact (s.base.nodeWay.zipIdx.filterMap (compactIndexPart s))
      ((Compact.compact s).byid .way).rows := by
  intro n w
  constructor
  · rintro ⟨q, hq, hx⟩
    obtain ⟨p, hp, hpq⟩ := List.mem_filterMap.mp hq
    rcases pair_of_new hone hp hpq hx with ⟨hn, hold⟩ | hnew
    · rw [pair_of_untouched hn]
      exact (hex n w).mp ⟨p.1, List.fst_mem_of_mem_zipIdx hp, hold⟩
    · exact hnew
  · intro hpair
    -- the part of the old row, or the one that the node is written to
    obtain ⟨p, hp, hrow, hkeep⟩ : ∃ p ∈ s.base.nodeWay.zipIdx, (n, w) ∈ indexPartRows s p ∧
        (p.2 ∉ (touchedNodeIds s).map (targetIndexPart s.base.nodeWay) → (n, w) ∈ p.1.rows) := by
      by_cases hn : n ∈ touchedNodeIds s
      · obtain ⟨p, hp⟩ := exists_target hne n
        exact ⟨_, hp, mem_indexPartRows.mpr (Or.inr ⟨hn, hpair, rfl⟩), fun hnot =>
          absurd (List.mem_map_of_mem hn) hnot⟩
      · obtain ⟨p, hp, hx⟩ := (hex n w).mpr ((pair_of_untouched hn).mp hpair)
        obtain ⟨i, hi⟩ := List.mem_iff_getElem?.mp hp
        exact ⟨(p, i), List.mem_zipIdx_iff_getElem?.mpr hi,
          mem_indexPartRows.mpr (Or.inl ⟨hx, hn⟩), fun _ => hx⟩
    by_cases ht : p.2 ∈ (touchedNodeIds s).map (targetIndexPart s.base.nodeWay)
    · obtain ⟨q, hq, hxq⟩ := rows_indexPartOf.mpr hrow
      exact ⟨q, List.mem_filterMap.mpr ⟨p, hp, by rw [compactIndexPart, if_pos ht, hq]⟩, hxq⟩
    · exact ⟨p.1, List.mem_filterMap.mpr ⟨p, hp, by rw [compactIndexPart, if_neg ht]⟩, hkeep ht⟩

/-- Without a touched node the refs stay as they are. -/
lemma indexExact_of_untouched (hex : IndexExact s.base.nodeWay (s.base.byid .way).rows)
    (hno : touchedNodeIds s = []) : IndexExact s.base.nodeWay
    ((Compact.compact s).byid .way).rows := by
  intro n w
  rw [hex n w, pair_of_untouched (by rw [hno]; exact List.not_mem_nil)]

/-- The parts that a range selects have every pair of its nodes. -/
lemma hasPair_of_range {parts : List IndexPart} (h : HasPair parts n w) {lo hi : ℤ} (h1 : lo ≤ n)
    (h2 : n ≤ hi) : HasPair (indexPartsForRange parts lo hi) n w := by
  obtain ⟨p, hp, hx⟩ := h
  have := p.inRange _ hx
  refine ⟨p, List.mem_filter.mpr ⟨hp, ?_⟩, hx⟩
  rw [decide_eq_true_eq]
  simp only at this
  omega

end Compaction

/-! ### When the index stays exact -/

/-- Compaction writes an index with the refs of the compacted ways, and the range of a node selects
its rows. -/
def KeepsIndex (s : Root) : Prop :=
  ∃ parts, compactNodeWayIndex s = some parts ∧
    IndexExact parts ((Compact.compact s).byid .way).rows ∧
    ∀ n w lo hi, HasPair parts n w → lo ≤ n → n ≤ hi → HasPair (indexPartsForRange parts lo hi) n w

/-- A base without index has no way with a ref, and no node that is to be written anew lies in the
range of two parts. -/
structure Indexable (s : Root) : Prop where
  empty : s.base.nodeWay = [] → ∀ i r, cur s .way i = some r → r.cols.refs = []
  one : ∀ n ∈ touchedNodeIds s, (partsWith s.base.nodeWay n).length ≤ 1

lemma no_pairs_iff {s : Root} (hg : Good s.deltas) :
    (∀ n w, (n, w) ∉ nodeWayPairs ((Compact.compact s).byid .way).rows) ↔
      ∀ i r, cur s .way i = some r → r.cols.refs = [] := by
  constructor
  · intro h i r hr
    rw [← Compact.byId_compact hg] at hr
    refine List.eq_nil_iff_forall_not_mem.mpr fun n hn => h n r.id ?_
    exact mem_nodeWayPairs.mpr ⟨r, mem_of_lookup hr, rfl, hn⟩
  · intro h n w hpair
    obtain ⟨r, hr, -, hn⟩ := mem_nodeWayPairs.mp hpair
    have hcur := (distinct_rows _).lookup_of_mem hr
    rw [h r.id r ((Compact.byId_compact hg .way r.id).symm.trans hcur)] at hn
    cases hn

lemma keepsIndex_iff {s : Root} (hg : Good s.deltas)
    (hex : IndexExact s.base.nodeWay (s.base.byid .way).rows) : KeepsIndex s ↔ Indexable s := by
  by_cases hempty : s.base.nodeWay = []
  · have hnone : compactNodeWayIndex s = some [] := if_pos hempty
    constructor
    · rintro ⟨parts, hparts, hexact, -⟩
      rw [hnone] at hparts
      cases hparts
      refine ⟨fun _ => (no_pairs_iff hg).mp fun n w hp => ?_,
        fun n _ => by simp [hempty, partsWith]⟩
      obtain ⟨p, hp, -⟩ := (hexact n w).mpr hp
      cases hp
    · intro h
      have hno := (no_pairs_iff hg).mpr (h.empty hempty)
      refine ⟨[], hnone, fun n w => ⟨?_, fun hp => absurd hp (hno n w)⟩, ?_⟩
      · rintro ⟨p, hp, -⟩
        cases hp
      · rintro n w lo hi ⟨p, hp, -⟩
        cases hp
  by_cases hno : touchedNodeIds s = []
  · refine iff_of_true ⟨s.base.nodeWay, ?_, indexExact_of_untouched hex hno, ?_⟩ ⟨?_, ?_⟩
    · rw [compactNodeWayIndex, if_neg hempty, if_pos hno]
    · exact fun n w lo hi h h1 h2 => hasPair_of_range h h1 h2
    · exact fun h => absurd h hempty
    · simp [hno]
  have heq : compactNodeWayIndex s = if ∃ n ∈ touchedNodeIds s, 1 <
      (partsWith s.base.nodeWay n).length then none else
        some (s.base.nodeWay.zipIdx.filterMap (compactIndexPart s)) := by
    rw [compactNodeWayIndex, if_neg hempty, if_neg hno]
  constructor
  · rintro ⟨parts, hparts, -⟩
    refine ⟨fun h => absurd h hempty, fun n hn => not_lt.mp fun hlt => ?_⟩
    rw [heq, if_pos ⟨n, hn, hlt⟩] at hparts
    cases hparts
  · intro h
    have hone : ¬ ∃ n ∈ touchedNodeIds s, 1 < (partsWith s.base.nodeWay n).length := by
      rintro ⟨n, hn, hlt⟩
      exact absurd (h.one n hn) (not_le.mpr hlt)
    exact ⟨_, heq.trans (if_neg hone), indexExact_compact hex hempty h.one,
      fun n w lo hi h h1 h2 => hasPair_of_range h h1 h2⟩

/-- **The index stays exact.** After any runs over a base with an exact index, compaction gives an
exact index, in which the range of a node selects its rows, exactly if the base has an index or no
way has a ref, and no node whose rows are written anew lies in two parts. -/
theorem node_way_index_exact_iff (b : Base) (hb : IndexExact b.nodeWay (b.byid .way).rows)
    (fs : List Fetched) : KeepsIndex (runs (fresh b) fs) ↔ Indexable (runs (fresh b) fs) := by
  have hbase : (runs (fresh b) fs).base = b := base_runs (fresh b) fs
  exact keepsIndex_iff (good_runs (good_fresh b) fs) (by rw [hbase]; exact hb)

lemma indexExact_world (w : World) : IndexExact w.base.nodeWay (w.base.byid .way).rows := by
  intro n i
  have hpairs : nodeWayPairs (w.base.byid .way).rows = w.nodeWay.rows := by
    rw [rows_byid, nodeWayPairs, List.flatMap_map]
    rfl
  rw [hpairs]
  exact ⟨fun ⟨p, hp, hx⟩ => by rwa [List.mem_singleton.mp hp] at hx,
    fun hx => ⟨_, List.mem_singleton_self _, hx⟩⟩

/-- A node of a way moves; the index of the street has one part. -/
theorem node_way_index_street : KeepsIndex (runs (fresh street.base)
    [⟨[diff 1 [change 2 2 (some ⟨30, 40⟩)] [] []], some 0⟩]) := by
  refine (node_way_index_exact_iff _ (indexExact_world street) _).mpr ⟨fun h => ?_, fun n _ => ?_⟩
  · rw [base_runs] at h
    cases h
  · rw [base_runs]
    exact List.length_filter_le _ _

/-- The first way of a dataset: a base without ways has no index, and none is made for it. -/
theorem node_way_index_of_first_way : ¬ ∀ (b : Base) (_ : IndexExact b.nodeWay (b.byid .way).rows)
    (fs : List Fetched), KeepsIndex (runs (fresh b) fs) := by
  intro h
  have hb : IndexExact oneNode.nodeWay (oneNode.byid .way).rows := fun n w =>
    iff_of_false (fun ⟨_, hp, _⟩ => by cases hp) List.not_mem_nil
  have hkeep := h oneNode hb [⟨[diff 1 [] [change 7 1 [1, 1]] []], some 0⟩]
  have hindex := ((keepsIndex_iff (good_runs (good_fresh oneNode) _)
    (by rw [base_runs]; exact hb)).mp hkeep).empty rfl 7
  have hrefs :
      (cur (runs (fresh oneNode) [⟨[diff 1 [] [change 7 1 [1, 1]] []], some 0⟩]) .way 7).map
      (fun r => r.cols.refs) = some [1, 1] := by decide
  obtain ⟨r, hr, hrefs⟩ := Option.map_eq_some_iff.mp hrefs
  rw [hindex r hr] at hrefs
  cases hrefs

end OsmParquet.NodeWayIndex
