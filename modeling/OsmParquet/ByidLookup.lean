import OsmParquet.EndOfTime
import OsmParquet.PartFiles

/-!
Looking an element up by its id.

A build cuts the rows of every type, which come in ascending order of id, into parts, and the
manifest has the least and the greatest id of each. Compaction gives a new row to the part that
has its id in range, to the nearest one below or to the first, and takes the ranges from what it
has written. The ranges stay disjoint however they grow, shrink and vanish, so that the parts
which meet a range of ids have every row there is for them. What the updater has written since
the last compaction is in no part: a lookup finds it in the delta tiers.
-/

namespace OsmParquet.ByidLookup

open OsmParquet.KeyedList OsmParquet.Rows OsmParquet.Tiers OsmParquet.TierSteps OsmParquet.ByidReads
open OsmParquet.CompactByid OsmParquet.PartFiles OsmParquet.Updater OsmParquet.Resolves
open OsmParquet.PrevCells OsmParquet.SpatialReads OsmParquet.RunSteps OsmParquet.Traces
open OsmParquet.Datasets

/-! ### The build -/

section Build

variable {α : Type}

def Ascending (rows : List (Row α)) : Prop := rows.Pairwise fun a b => a.id < b.id

lemma Ascending.distinct {rows : List (Row α)} (h : Ascending rows) : Distinct Row.id rows :=
  (List.pairwise_map.mpr h).imp fun hab => hab.ne

lemma ascending_of_mem {rows : List (Row α)} (h : Ascending rows) {cut : List (List (Row α))}
    (hc : cut.flatten = rows) {p : List (Row α)} (hp : p ∈ cut) : Ascending p :=
  (List.pairwise_flatten.mp (hc ▸ h)).1 p hp

/-- The parts of a table that its rows are cut into, with the ranges that the files have. -/
def placeParts {rows : List (Row α)} (h : Ascending rows) (cut : List (List (Row α)))
    (hc : cut.flatten = rows) : List (ByidPart α) :=
  cut.attach.filterMap fun p => partOf p.1 (ascending_of_mem h hc p.2).distinct

lemma sorted_placeParts {rows : List (Row α)} (h : Ascending rows) (cut : List (List (Row α)))
    (hc : cut.flatten = rows) : (placeParts h cut hc).Pairwise fun p q => p.maxId < q.minId := by
  have hcut : cut.attach.Pairwise fun a b => ∀ x ∈ a.1, ∀ y ∈ b.1, x.id < y.id := by
    have h' : (cut.attach.map Subtype.val).flatten.Pairwise fun a b => a.id < b.id := by
      rw [List.attach_map_subtype_val, hc]
      exact h
    exact List.pairwise_map.mp (List.pairwise_flatten.mp h').2
  refine List.Pairwise.filterMap _ ?_ hcut
  intro a b hab p hp q hq
  obtain ⟨-, -, hmax⟩ := partOf_eq_some hp
  obtain ⟨-, hmin, -⟩ := partOf_eq_some hq
  obtain ⟨x, hx, hxp⟩ := List.mem_map.mp hmax
  obtain ⟨y, hy, hyq⟩ := List.mem_map.mp hmin
  rw [← hxp, ← hyq]
  exact hab x hx y hy

def byidTable {rows : List (Row α)} (h : Ascending rows) (cut : List (List (Row α)))
    (hc : cut.flatten = rows) : ByidTable α := ⟨placeParts h cut hc, sorted_placeParts h cut hc⟩

/-- No row of the table is lost. -/
lemma mem_rows_byidTable {rows : List (Row α)} (h : Ascending rows) {cut : List (List (Row α))}
    (hc : cut.flatten = rows) (r : Row α) : r ∈ (byidTable h cut hc).rows ↔ r ∈ rows := by
  have hmem : r ∈ (byidTable h cut hc).rows ↔ ∃ p ∈ cut, r ∈ p := by
    constructor
    · intro hr
      obtain ⟨q, hq, hrq⟩ := List.mem_flatMap.mp hr
      obtain ⟨p, -, hpq⟩ := List.mem_filterMap.mp hq
      exact ⟨p.1, p.2, (rows_partOf _ r).mp ⟨q, hpq, hrq⟩⟩
    · rintro ⟨p, hp, hr⟩
      obtain ⟨q, hq, hrq⟩ := (rows_partOf (ascending_of_mem h hc hp).distinct r).mpr hr
      exact List.mem_flatMap.mpr ⟨q, List.mem_filterMap.mpr ⟨⟨p, hp⟩, List.mem_attach _ _, hq⟩, hrq⟩
  rw [hmem, ← hc, List.mem_flatten]

end Build

def nodeByidPartRows : ℕ := 4000000
def wayByidPartRows : ℕ := 1000000
def relationPartRows : ℕ := 4000000
def batchRows : ℕ := 64000

/-- Nodes and ways come in parts from the raw pass; relations are cut when their boxes are known. -/
def cutRows : (t : Typ) → List (Row (ByidCols t)) → List (List (Row (ByidCols t)))
  | .node, rows => writeParts nodeByidPartRows batchRows rows
  | .way, rows => writeParts wayByidPartRows batchRows rows
  | .relation, rows => if rows = [] then [] else rangeParts Row.id relationPartRows rows

lemma flatten_cutRows {t : Typ} {rows : List (Row (ByidCols t))} (h : Ascending rows) :
    (cutRows t rows).flatten = rows := by
  cases t with
  | node => exact (writeParts_spec _ _ rows).1
  | way => exact (writeParts_spec _ _ rows).1
  | relation =>
    by_cases hne : rows = []
    · simp [cutRows, hne]
    · rw [cutRows, if_neg hne]
      exact (rangeParts_spec h hne (by decide)).1

/-- The rows of a build, in ascending order of id. -/
structure RawRows where
  rows : (t : Typ) → List (Row (ByidCols t))
  ascending : ∀ t, Ascending (rows t)

/-- A base with the rows of a build; the rest of what it has is given. -/
def buildByid (raw : RawRows) (b : Base) : Base :=
  { b with
    byid := fun t =>
      byidTable (raw.ascending t) (cutRows t (raw.rows t)) (flatten_cutRows (raw.ascending t)) }

/-! ### The parts of a range -/

/-- The parts whose ids can be in the range. -/
def partsForRange {α : Type} (parts : List (ByidPart α)) : Option ℤ → Option ℤ → List (ByidPart α)
  | some lo, some hi => parts.filter fun p => p.maxId ≥ lo ∧ p.minId ≤ hi
  | _, _ => []

/-- The parts with a row of this id. -/
def holders {α : Type} (parts : List (ByidPart α)) (i : ℤ) : List (ByidPart α) :=
  parts.filter fun p => i ∈ p.rows.map Row.id

section Lookup

variable {α : Type} {i : ℤ}

lemma mem_holders {parts : List (ByidPart α)} {p : ByidPart α} :
    p ∈ holders parts i ↔ p ∈ parts ∧ i ∈ p.rows.map Row.id := by
  simp [holders]

/-- An id is in at most one part. -/
lemma length_holders_le (b : ByidTable α) (i : ℤ) : (holders b.parts i).length ≤ 1 := by
  have hs : (holders b.parts i).Pairwise fun p q => p.maxId < q.minId := b.sorted.filter _
  rcases hh : holders b.parts i with _ | ⟨p, _ | ⟨q, l⟩⟩
  · simp
  · simp
  · rw [hh] at hs
    have hlt := (List.pairwise_cons.mp hs).1 q List.mem_cons_self
    have hp : p ∈ holders b.parts i := hh ▸ List.mem_cons_self
    have hq : q ∈ holders b.parts i := hh ▸ List.mem_cons_of_mem _ List.mem_cons_self
    obtain ⟨r, hr, rfl⟩ := List.mem_map.mp (mem_holders.mp hp).2
    obtain ⟨r', hr', he⟩ := List.mem_map.mp (mem_holders.mp hq).2
    have h1 := (p.inRange r hr).2
    have h2 := (q.inRange r' hr').1
    omega

/-- A stored id is in exactly one part. -/
lemma length_holders (b : ByidTable α) (h : i ∈ b.rows.map Row.id) :
    (holders b.parts i).length = 1 := by
  obtain ⟨r, hr, rfl⟩ := List.mem_map.mp h
  obtain ⟨p, hp, hrp⟩ := List.mem_flatMap.mp hr
  have hpos : 0 < (holders b.parts r.id).length :=
    List.length_pos_of_mem (mem_holders.mpr ⟨hp, List.mem_map_of_mem hrp⟩)
  have := length_holders_le b r.id
  omega

lemma mem_partsForRange {parts : List (ByidPart α)} {p : ByidPart α} (hp : p ∈ holders parts i)
    {lo hi : ℤ} (h1 : lo ≤ i) (h2 : i ≤ hi) : p ∈ partsForRange parts (some lo) (some hi) := by
  obtain ⟨hmem, hid⟩ := mem_holders.mp hp
  obtain ⟨r, hr, rfl⟩ := List.mem_map.mp hid
  have := p.inRange r hr
  refine List.mem_filter.mpr ⟨hmem, ?_⟩
  rw [decide_eq_true_eq]
  omega

end Lookup

/-- An element that no tier has a row of is in the parts. -/
lemma stored_of_no_tier {s : Root} {t : Typ} {i : ℤ} (hno : tierRows s.deltas t i = [])
    (hex : (cur s t i).isSome = true) : i ∈ (s.base.byid t).rows.map Row.id := by
  rw [cur_of_no_rows hno] at hex
  obtain ⟨r, hr⟩ := Option.isSome_iff_exists.mp hex
  rw [← key_of_lookup hr]
  exact List.mem_map_of_mem (mem_of_lookup hr)

/-! ### Runs -/

/-- What a lookup by id relies on. -/
structure Complete (d : Dataset) (t : Typ) : Prop where
  disjoint : (d.root.base.byid t).parts.Pairwise fun p q => p.maxId < q.minId ∨ q.maxId < p.minId
  once : ∀ i, (cur d.root t i).isSome = true → tierRows d.root.deltas t i = [] →
    (holders (d.root.base.byid t).parts i).length = 1
  selected : ∀ i, ∀ p ∈ holders (d.root.base.byid t).parts i, ∀ lo hi, lo ≤ i → i ≤ hi →
    p ∈ partsForRange (d.root.base.byid t).parts (some lo) (some hi)

lemma complete (d : Dataset) (t : Typ) : Complete d t where
  disjoint := (d.root.base.byid t).sorted.imp Or.inl
  once _ hex hno := length_holders _ (stored_of_no_tier hno hex)
  selected _ _ hp _ _ h1 h2 := mem_partsForRange hp h1 h2

/-- The tiers stay in order along a run. -/
lemma good_play {b : Base} {cs : List Command} {d : Dataset}
    (hd : play execute (built b) cs = some d) : Good d.root.deltas := by
  have hlevel : ∃ bare, Level bare d :=
    play_keeps_always (I := fun d => ∃ bare, Level bare d)
      (fun d c _ ⟨bare, hl⟩ he => ⟨bareAfter bare d c, level_step hl he⟩)
      ⟨false, level_of_empty rfl⟩ hd
  exact hlevel.choose_spec.good

/-- **Lookup by id is complete.** A build stores the rows it is given. In every dataset that updates
and compactions lead to, the ranges of the parts are disjoint, an element that is not in the delta
tiers is in exactly one part, and every range with its id selects that part. Compaction changes no
element, and after it each is in exactly one part. -/
theorem byid_lookup_complete (raw : RawRows) (b : Base) (cs : List Command) (d : Dataset)
    (hd : play execute (built (buildByid raw b)) cs = some d) (t : Typ) :
    (∀ i, cur (built (buildByid raw b)).root t i = byId i (raw.rows t)) ∧ Complete d t ∧
      ∀ nodeWay member d', execute d (.compact nodeWay member) = some d' → Complete d' t ∧
        ∀ i, cur d'.root t i = cur d.root t i ∧ ((cur d.root t i).isSome = true →
          (holders (d'.root.base.byid t).parts i).length = 1) := by
  refine ⟨fun i => ?_, complete d t, ?_⟩
  · rw [cur_of_no_rows rfl]
    exact (distinct_rows _).lookup_congr (raw.ascending t).distinct fun r =>
      mem_rows_byidTable _ _ r
  · rintro nodeWay member d' ⟨⟩
    have hsame : ∀ i,
        cur (fresh { d.root.base with toTables := Compact.compact d.root, nodeWay, member }) t i =
        cur d.root t i := fun i => by
      rw [cur_of_no_rows rfl]
      exact Compact.byId_compact (good_play hd) t i
    refine ⟨complete _ t, fun i => ⟨hsame i, fun hex => ?_⟩⟩
    exact (complete _ t).once i (by rw [← hex, ← hsame i]) rfl

/-- A build without elements. -/
def noRows : RawRows := ⟨fun _ => [], fun _ => List.Pairwise.nil⟩

/-- A node that is created, after which the dataset is compacted, and the node deleted. -/
theorem byid_lookup_create_delete : ∃ d, play execute (built (buildByid noRows oneNode))
    [.update (EndOfTime.nodeVersion 1 1 false 10), .compact [] [],
      .update (EndOfTime.nodeVersion 2 2 true 20)] = some d ∧ Complete d .node := by
  have hs : (play execute (built (buildByid noRows oneNode))
      [.update (EndOfTime.nodeVersion 1 1 false 10), .compact [] [],
        .update (EndOfTime.nodeVersion 2 2 true 20)]).isSome = true := by decide
  obtain ⟨d, hd⟩ := Option.isSome_iff_exists.mp hs
  exact ⟨d, hd, (byid_lookup_complete noRows oneNode _ d hd .node).2.1⟩

/-- A node that a run has created is in no part until the next compaction. -/
theorem created_node_in_no_part : ¬ ∀ (raw : RawRows) (b : Base) (cs : List Command) (d : Dataset),
    play execute (built (buildByid raw b)) cs = some d → ∀ t i, (cur d.root t i).isSome = true →
      (holders (d.root.base.byid t).parts i).length = 1 := by
  intro h
  have hs : (play execute (built (buildByid noRows oneNode))
      [.update (EndOfTime.nodeVersion 1 1 false 10)]).any (fun d => (cur d.root .node 1).isSome &&
        (holders (d.root.base.byid .node).parts 1).isEmpty) = true := by decide
  obtain ⟨d, hd, hd'⟩ := (Option.any_eq_true _ _).mp hs
  obtain ⟨hex, hempty⟩ := Bool.and_eq_true_iff.mp hd'
  have hone := h noRows oneNode _ d hd .node 1 hex
  rw [List.isEmpty_iff.mp hempty] at hone
  cases hone

end OsmParquet.ByidLookup
