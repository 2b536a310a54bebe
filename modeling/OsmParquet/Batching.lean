import Mathlib.Data.List.Infix
import OsmParquet.ExtentFilter
import OsmParquet.RelationBoxes

/-!
How a sequence of diffs is cut into runs.

A run looks at the last occurrence of every element in its batch, and decides what to keep with
the dataset as it was before the batch. A node that comes into the extent and leaves it again is
kept by two runs and dropped by one. For diffs in which the extent filter decides the same way
wherever a batch begins, the elements after a sequence of runs are said here by the diffs alone.
-/

namespace OsmParquet.Batching

open OsmParquet.KeyedList OsmParquet.Layers OsmParquet.Rows OsmParquet.Tiers OsmParquet.TierSteps
open OsmParquet.ByidReads OsmParquet.Cells OsmParquet.Updater OsmParquet.Resolves
open OsmParquet.PrevCells OsmParquet.SpatialReads OsmParquet.RunSteps OsmParquet.OneCell
open OsmParquet.WayGeometry OsmParquet.RelationBoxes OsmParquet.ExtentFilter

/-! ### What the rows have from the diffs -/

/-- What the current row of an element has from a diff. The rest of a way or relation is
derived from its nodes and members. -/
@[reducible] def Content : Typ → Type
  | .node => Row NodeCols
  | .way => List ℤ × Attrs
  | .relation => List Member × Attrs

def content : {t : Typ} → Row (ByidCols t) → Content t
  | .node, r => r
  | .way, r => (r.cols.refs, r.cols.attrs)
  | .relation, r => (r.cols.members, r.cols.attrs)

/-- The content a change gives its element. -/
def contentOf (s : Root) : {t : Typ} → Change (Body t) → Content t
  | .node, c => ⟨c.id, some (pointCell s.base.leafCells (c.body.getD ⟨0, 0⟩)),
      ⟨c.body, changeAttrs s c, hilbertKey (c.body.getD ⟨0, 0⟩)⟩⟩
  | .way, c => (c.body, changeAttrs s c)
  | .relation, c => (c.body, changeAttrs s c)

def versionOf : {t : Typ} → Content t → ℤ
  | .node, x => x.cols.attrs.version
  | .way, x => x.2.version
  | .relation, x => x.2.version

def curContent (s : Root) (t : Typ) (i : ℤ) : Option (Content t) := (cur s t i).map content

@[simp] lemma versionOf_content {t : Typ} (r : Row (ByidCols t)) :
    versionOf (content r) = (attrs r.cols).version := by cases t <;> rfl

@[simp] lemma versionOf_contentOf {t : Typ} (s : Root) (c : Change (Body t)) :
    versionOf (contentOf s c) = c.version := by cases t <;> rfl

lemma contentOf_congr {s s' : Root} (h : s'.base = s.base) {t : Typ} (c : Change (Body t)) :
    contentOf s' c = contentOf s c := by
  cases t <;> simp only [contentOf, changeAttrs, h]

section Step

variable {s : Root} {f : Fetched}

lemma isSome_curContent (s : Root) (t : Typ) (i : ℤ) :
    (curContent s t i).isSome = (cur s t i).isSome := Option.isSome_map

lemma newer_iff {t : Typ} {c : Change (Body t)} :
    newer s c = true ↔ ∀ x, curContent s t c.id = some x → versionOf x < c.version := by
  unfold newer curContent
  rcases cur s t c.id with _ | p
  · simp
  · simp

/-- **The content after a run**: from the kept change, or as it was. -/
lemma curContent_runOnce (hg : Good s.deltas) (h : f.diffs ≠ []) (t : Typ) (i : ℤ) :
    curContent (runOnce s f) t i = match changeById i (keptOf s f t) with
      | some c => if c.deleted then none else some (contentOf s c)
      | none => curContent s t i := by
  rw [curContent, cur_runOnce hg h]
  cases t with
  | node =>
    rw [row_node]
    rcases changeById i (keptOf s f .node) with _ | c
    · rfl
    · rcases hd : c.deleted with _ | _
      · simp [resolveNode, hd, DeltaRow.map, DeltaRow.alive, byidCols, content, contentOf]
      · simp [resolveNode, hd, DeltaRow.map, DeltaRow.alive]
  | way =>
    rw [row_way hg, touchedRow]
    rcases changeById i (keptOf s f .way) with _ | c
    · -- a way resolved as it is keeps its refs and attributes
      simp only
      split
      · rcases hc : cur s .way i with _ | r
        · simp [curContent, hc]
        · simp [curContent, hc, asIsWay, resolveWay, DeltaRow.map, DeltaRow.alive,
            byidCols, content]
      · rfl
    · rcases hd : c.deleted with _ | _
      · simp [resolveWay, hd, DeltaRow.map, DeltaRow.alive, byidCols, content, contentOf]
      · simp [resolveWay, hd, deletedRow, DeltaRow.map, DeltaRow.alive]
  | relation =>
    rw [row_relation hg, touchedRow]
    rcases changeById i (keptOf s f .relation) with _ | c
    · simp only
      split
      · rcases hc : cur s .relation i with _ | r
        · simp [curContent, hc]
        · simp [curContent, hc, asIsRelation, resolveRelation, DeltaRow.map,
            DeltaRow.alive, byidCols, content]
      · rfl
    · rcases hd : c.deleted with _ | _
      · simp [resolveRelation, hd, DeltaRow.map, DeltaRow.alive, byidCols, content, contentOf]
      · simp [resolveRelation, hd, deletedRow, DeltaRow.map, DeltaRow.alive]

/-! ### What a run keeps -/

/-- What makes the extent filter keep a new element: a node inside the extent, a way with a node
that is known once the batch is applied, a relation with a member that exists before. -/
def Anchored (s : Root) (f : Fetched) : {t : Typ} → Change (Body t) → Prop
  | .node, c => ∃ p, c.body = some p ∧ s.base.extent.contains p = true
  | .way, c => ∃ n ∈ c.body, (cur s .node n).isSome ∨ n ∈ (keptOf s f .node).map Change.id
  | .relation, c => ∃ m ∈ c.body, (cur s m.type m.ref).isSome

/-- The batch once the stale versions are dropped. -/
def batchOf (s : Root) (f : Fetched) : Batch := dropStaleVersions s (parseBatch f.diffs)

lemma mem_batchOf (hg : Good s.deltas) {t : Typ} {c : Change (Body t)} :
    c ∈ batchOf s f t ↔ c ∈ parseBatch f.diffs t ∧ newer s c = true := by
  rw [batchOf, dropStaleVersions_eq hg, List.mem_filter]

lemma anchored_iff_known {t : Typ} {c : Change (Body t)} :
    Anchored s f c ↔ Known s (batchOf s f) c := by cases t <;> rfl

/-- **What a run keeps**: the newest change of an element, when it is newer than the current row
and the element exists or is anchored. -/
lemma mem_keptOf (hg : Good s.deltas) {t : Typ} {c : Change (Body t)} : c ∈ keptOf s f t ↔
    c ∈ parseBatch f.diffs t ∧ newer s c = true ∧
      ((cur s t c.id).isSome ∨ c.deleted = false ∧ Anchored s f c) := by
  rw [← and_assoc, ← mem_batchOf hg, anchored_iff_known]
  exact mem_extentFilter hg

end Step

/-! ### What the diffs say of an element -/

/-- The last change of an element in some diffs. -/
def lastChange (ds : List Diff) (t : Typ) (i : ℤ) : Option (Change (Body t)) :=
  changeById i (parseBatch ds t)

section LastChange

variable {ds es : List Diff} {t : Typ} {i : ℤ} {c : Change (Body t)}

lemma allChanges_append (ds es : List Diff) (t : Typ) :
    allChanges (ds ++ es) t = allChanges ds t ++ allChanges es t := by
  simp [allChanges]

lemma lastChange_append (ds es : List Diff) (t : Typ) (i : ℤ) :
    lastChange (ds ++ es) t i = (lastChange es t i).or (lastChange ds t i) := by
  simp only [lastChange, changeById, parseBatch, lookup_firstPerKey]
  rw [allChanges_append, List.reverse_append, lookup_append]

lemma lastChange_eq_some : lastChange ds t i = some c ↔ c ∈ parseBatch ds t ∧ c.id = i :=
  distinct_firstPerKey.lookup_eq_some

lemma mem_allChanges (h : c ∈ parseBatch ds t) : c ∈ allChanges ds t :=
  List.mem_reverse.mp (mem_of_lookup (mem_firstPerKey.mp h))

end LastChange

/-- The element exists from the start, and no newer version deletes it. -/
def Standing (s : Root) (ds : List Diff) (t : Typ) (i : ℤ) : Prop :=
  (cur s t i).isSome ∧ ∀ c ∈ allChanges ds t, c.id = i → newer s c = true → c.deleted = false

open Classical in
/-- The content of an element after some diffs: that of the last change if it is newer than the
row there is. An element that is away is never stored. -/
noncomputable def settled (s : Root) (away : Typ → Set ℤ) (ds : List Diff) (t : Typ) (i : ℤ) :
    Option (Content t) :=
  match lastChange ds t i with
  | some c => if newer s c then (if c.deleted ∨ i ∈ away t then none else some (contentOf s c))
      else curContent s t i
  | none => curContent s t i

/-- The elements of `away` are not stored and never come in: after no diff is such a node inside
the extent, or has such a way or relation a node or member that is not away too. -/
structure Away (s : Root) (away : Typ → Set ℤ) (ds : List Diff) : Prop where
  absent : ∀ t, ∀ i ∈ away t, cur s t i = none
  node : ∀ es, es <+: ds → ∀ c ∈ parseBatch es .node, c.deleted = false → c.id ∈ away .node →
    ∀ p, c.body = some p → s.base.extent.contains p = false
  way : ∀ es, es <+: ds → ∀ c ∈ parseBatch es .way, c.deleted = false → c.id ∈ away .way →
    ∀ n ∈ c.body, n ∈ away .node
  relation : ∀ es, es <+: ds → ∀ c ∈ parseBatch es .relation, c.deleted = false →
    c.id ∈ away .relation → ∀ m ∈ c.body, m.ref ∈ away m.type

/-- Diffs in which the versions increase, and after each of which every element they leave is
away, or stands from the start, or belongs to the dataset by itself: a node is inside the extent,
a way has a node that the diffs leave, a relation has a member that stands from the start. -/
structure Steady (s : Root) (away : Typ → Set ℤ) (ds : List Diff) : Prop where
  versions : ∀ t, (allChanges ds t).Pairwise fun c c' => c.id = c'.id → c.version < c'.version
  outside : Away s away ds
  node : ∀ es, es <+: ds → ∀ c ∈ parseBatch es .node, c.deleted = false → c.id ∉ away .node →
    Standing s es .node c.id ∨ ∃ p, c.body = some p ∧ s.base.extent.contains p = true
  way : ∀ es, es <+: ds → ∀ c ∈ parseBatch es .way, c.deleted = false → c.id ∉ away .way →
    Standing s es .way c.id ∨ ∃ n ∈ c.body, (settled s away es .node n).isSome
  relation : ∀ es, es <+: ds → ∀ c ∈ parseBatch es .relation, c.deleted = false →
    c.id ∉ away .relation → Standing s es .relation c.id ∨ ∃ m ∈ c.body, Standing s es m.type m.ref

section Settled

variable {s₀ s : Root} {away : Typ → Set ℤ} {ds es : List Diff} {t : Typ} {i : ℤ}
  {c : Change (Body t)}

lemma mem_allChanges_of_initial (h : c ∈ parseBatch es t) (hp : es <+: ds) :
    c ∈ allChanges ds t := by
  obtain ⟨rest, rfl⟩ := hp
  rw [allChanges_append]
  exact List.mem_append_left _ (mem_allChanges h)

lemma Standing.of_initial (h : Standing s ds t i) (hp : es <+: ds) : Standing s es t i := by
  obtain ⟨rest, rfl⟩ := hp
  refine ⟨h.1, fun c hc => h.2 c ?_⟩
  rw [allChanges_append]
  exact List.mem_append_left _ hc

lemma settled_of_away (ha : Away s away es) (h : i ∈ away t) : settled s away ds t i = none := by
  have hnone : curContent s t i = none := by rw [curContent, ha.absent t i h]; rfl
  unfold settled
  rcases lastChange ds t i with _ | c
  · exact hnone
  · simp [h, hnone]

lemma Standing.settled (ha : Away s away es) (h : Standing s ds t i) :
    (settled s away ds t i).isSome := by
  have hsome : (curContent s t i).isSome := by rw [isSome_curContent]; exact h.1
  unfold Batching.settled
  rcases hl : lastChange ds t i with _ | c
  · exact hsome
  · obtain ⟨hc, rfl⟩ := lastChange_eq_some.mp hl
    have hin : c.id ∉ away t := by
      intro hin
      have hex := h.1
      rw [ha.absent t c.id hin] at hex
      cases hex
    by_cases hn : newer s c = true
    · simp [hn, h.2 c (mem_allChanges hc) rfl hn, hin]
    · simp [hn, hsome]

/-- Of the versions of an element a later one is newer than the row that the diffs before it
left, exactly if it is newer than the one at the start. -/
lemma newer_settled (hv : (allChanges (ds ++ es) t).Pairwise fun c c' =>
      c.id = c'.id → c.version < c'.version)
    (hs : curContent s t c.id = settled s₀ away ds t c.id) (hc : c ∈ parseBatch es t) :
    (newer s c = true ↔ newer s₀ c = true) ∧
      (¬ newer s₀ c = true → curContent s t c.id = curContent s₀ t c.id) := by
  rw [newer_iff, newer_iff, hs]
  unfold settled
  rcases hl : lastChange ds t c.id with _ | c'
  · simp
  · obtain ⟨hc', hid⟩ := lastChange_eq_some.mp hl
    rw [allChanges_append, List.pairwise_append] at hv
    have hlt : c'.version < c.version :=
      hv.2.2 c' (mem_allChanges hc') c (mem_allChanges hc) hid
    by_cases hn : newer s₀ c' = true
    · -- what the start has is older than the earlier change, and so than this one
      have hold : ∀ x, curContent s₀ t c.id = some x → versionOf x < c.version := by
        intro x hx
        rw [← hid] at hx
        exact (newer_iff.mp hn x hx).trans hlt
      refine ⟨⟨fun _ => hold, fun _ x hx => ?_⟩, fun hnot => absurd hold hnot⟩
      simp only [hn, if_true] at hx
      split at hx
      · cases hx
      · cases hx
        simpa using hlt
    · simp [hn]

end Settled

/-! ### One run -/

section Run

variable {s₀ s : Root} {away : Typ → Set ℤ} {ds : List Diff} {f : Fetched}

/-- The dataset is what some diffs have settled over another. -/
structure Follows (s₀ : Root) (away : Typ → Set ℤ) (ds : List Diff) (s : Root) : Prop where
  good : Good s.deltas
  base : s.base = s₀.base
  content : ∀ t i, curContent s t i = settled s₀ away ds t i

lemma Follows.exists (hs : Follows s₀ away ds s) (t : Typ) (i : ℤ) :
    (cur s t i).isSome = (settled s₀ away ds t i).isSome := by
  rw [← hs.content, isSome_curContent]

/-- An element that stands from the start exists before every run. -/
lemma Follows.standing (hs : Follows s₀ away ds s) (hd : Steady s₀ away (ds ++ f.diffs)) {t : Typ}
    {i : ℤ} (h : Standing s₀ (ds ++ f.diffs) t i) : (cur s t i).isSome := by
  rw [hs.exists]
  exact (h.of_initial (List.prefix_append _ _)).settled hd.outside

lemma Follows.absent (hs : Follows s₀ away ds s) (hd : Steady s₀ away (ds ++ f.diffs)) {t : Typ}
    {i : ℤ} (h : i ∈ away t) : cur s t i = none := by
  have hn := hs.exists t i
  rw [settled_of_away hd.outside h] at hn
  simpa using hn

/-- The last changes of the batch are the last changes of all diffs. -/
lemma mem_parseBatch_append (ds : List Diff) {t : Typ} {c : Change (Body t)}
    (h : c ∈ parseBatch f.diffs t) : c ∈ parseBatch (ds ++ f.diffs) t := by
  have hl : lastChange f.diffs t c.id = some c := lastChange_eq_some.mpr ⟨h, rfl⟩
  have ha : lastChange (ds ++ f.diffs) t c.id = some c := by rw [lastChange_append, hl]; rfl
  exact (lastChange_eq_some.mp ha).1

/-- A node that is away is not kept. -/
lemma not_kept_of_away (hs : Follows s₀ away ds s) (hd : Steady s₀ away (ds ++ f.diffs)) {n : ℤ}
    (hn : n ∈ away .node) : n ∉ (keptOf s f .node).map Change.id := by
  intro hk
  obtain ⟨c, hc, rfl⟩ := List.mem_map.mp hk
  obtain ⟨hb, -, hex | ⟨hdel, p, hp, hin⟩⟩ := (mem_keptOf hs.good).mp hc
  · rw [hs.absent hd hn] at hex
    cases hex
  · have hout := hd.outside.node _ List.prefix_rfl c (mem_parseBatch_append ds hb) hdel hn p hp
    rw [hs.base, hout] at hin
    cases hin

/-- What is away finds no anchor. -/
lemma not_anchored_of_away (hs : Follows s₀ away ds s)
    (hd : Steady s₀ away (ds ++ f.diffs)) {t : Typ}
    {c : Change (Body t)} (hc : c ∈ parseBatch f.diffs t) (hdel : c.deleted = false)
    (hin : c.id ∈ away t) : ¬ Anchored s f c := by
  have hall := mem_parseBatch_append ds hc
  cases t with
  | node =>
    rintro ⟨p, hp, hcon⟩
    rw [hs.base, hd.outside.node _ List.prefix_rfl c hall hdel hin p hp] at hcon
    cases hcon
  | way =>
    rintro ⟨n, hn, hex | hk⟩
    · rw [hs.absent hd (hd.outside.way _ List.prefix_rfl c hall hdel hin n hn)] at hex
      cases hex
    · exact not_kept_of_away hs hd (hd.outside.way _ List.prefix_rfl c hall hdel hin n hn) hk
  | relation =>
    rintro ⟨m, hm, hex⟩
    rw [hs.absent hd (hd.outside.relation _ List.prefix_rfl c hall hdel hin m hm)] at hex
    cases hex

/-- A node that the diffs leave is known to the run. -/
lemma known_of_settled (hs : Follows s₀ away ds s) (hd : Steady s₀ away (ds ++ f.diffs)) {n : ℤ}
    (hn : (settled s₀ away (ds ++ f.diffs) .node n).isSome) :
    (cur s .node n).isSome ∨ n ∈ (keptOf s f .node).map Change.id := by
  rcases hl : lastChange f.diffs .node n with _ | c
  · refine Or.inl ?_
    rw [hs.exists]
    rwa [settled, lastChange_append, hl] at hn
  · obtain ⟨hc, rfl⟩ := lastChange_eq_some.mp hl
    have hall := mem_parseBatch_append ds hc
    obtain ⟨hnew, hold⟩ := newer_settled (hd.versions .node) (hs.content .node c.id) hc
    rw [settled, lastChange_append, hl, Option.some_or] at hn
    simp only at hn
    split at hn
    · rename_i h0
      split at hn
      · cases hn
      · rename_i hor
        obtain ⟨hdel, hin⟩ := not_or.mp hor
        rw [Bool.not_eq_true] at hdel
        rcases hd.node _ List.prefix_rfl c hall hdel hin with hst | hanch
        · exact Or.inl (hs.standing hd hst)
        · refine Or.inr (List.mem_map_of_mem ((mem_keptOf hs.good).mpr
            ⟨hc, hnew.mpr h0, Or.inr ⟨hdel, ?_⟩⟩))
          rw [← hs.base] at hanch
          exact hanch
    · rename_i h0
      rw [← hold h0, isSome_curContent] at hn
      exact Or.inl hn

/-- What is not away exists or finds an anchor. -/
lemma admitted (hs : Follows s₀ away ds s) (hd : Steady s₀ away (ds ++ f.diffs)) {t : Typ}
    {c : Change (Body t)} (hc : c ∈ parseBatch f.diffs t) (hdel : c.deleted = false)
    (hin : c.id ∉ away t) : (cur s t c.id).isSome ∨ Anchored s f c := by
  have hall := mem_parseBatch_append ds hc
  cases t with
  | node =>
    rcases hd.node _ List.prefix_rfl c hall hdel hin with hst | hanch
    · exact Or.inl (hs.standing hd hst)
    · rw [← hs.base] at hanch
      exact Or.inr hanch
  | way =>
    rcases hd.way _ List.prefix_rfl c hall hdel hin with hst | ⟨n, hn, hleft⟩
    · exact Or.inl (hs.standing hd hst)
    · exact Or.inr ⟨n, hn, known_of_settled hs hd hleft⟩
  | relation =>
    rcases hd.relation _ List.prefix_rfl c hall hdel hin with hst | ⟨m, hm, hst⟩
    · exact Or.inl (hs.standing hd hst)
    · exact Or.inr ⟨m, hm, hs.standing hd hst⟩

lemma changeById_keptOf (hg : Good s.deltas) {t : Typ} {i : ℤ} {c : Change (Body t)} :
    changeById i (keptOf s f t) = some c ↔ lastChange f.diffs t i = some c ∧ newer s c = true ∧
      ((cur s t i).isSome ∨ c.deleted = false ∧ Anchored s f c) := by
  refine ((oneChange_keptOf s f t).lookup_eq_some).trans ?_
  rw [mem_keptOf hg, lastChange_eq_some]
  refine ⟨?_, ?_⟩
  · rintro ⟨⟨hc, hn, ha⟩, rfl⟩
    exact ⟨⟨hc, rfl⟩, hn, ha⟩
  · rintro ⟨⟨hc, rfl⟩, hn, ha⟩
    exact ⟨⟨hc, hn, ha⟩, rfl⟩

/-- **One run settles its diffs.** -/
theorem follows_runOnce (hs : Follows s₀ away ds s) (hd : Steady s₀ away (ds ++ f.diffs)) :
    Follows s₀ away (ds ++ f.diffs) (runOnce s f) := by
  by_cases h : f.diffs = []
  · rw [runOnce_of_nil h, h, List.append_nil]
    exact hs
  refine ⟨good_runOnce hs.good f, (base_runOnce s f).trans hs.base, fun t i => ?_⟩
  rw [curContent_runOnce hs.good h]
  rcases hk : changeById i (keptOf s f t) with _ | c
  · -- nothing is kept of the element
    have hnot : ∀ c, lastChange f.diffs t i = some c → newer s c = true →
        ¬ ((cur s t i).isSome ∨ c.deleted = false ∧ Anchored s f c) := by
      intro c hl hn ha
      rw [(changeById_keptOf hs.good).mpr ⟨hl, hn, ha⟩] at hk
      cases hk
    simp only
    rw [settled, lastChange_append]
    rcases hl : lastChange f.diffs t i with _ | c
    · exact hs.content t i
    · obtain ⟨hc, rfl⟩ := lastChange_eq_some.mp hl
      obtain ⟨hnew, hold⟩ := newer_settled (hd.versions t) (hs.content t c.id) hc
      by_cases hn : newer s₀ c = true
      · obtain ⟨hex, hanch⟩ := not_or.mp (hnot c hl (hnew.mpr hn))
        have hgone : curContent s t c.id = none := by
          rw [curContent, Option.not_isSome_iff_eq_none.mp hex]; rfl
        rw [hgone, Option.some_or]
        simp only [hn, if_true]
        rw [if_pos]
        by_contra hor
        obtain ⟨hdel, hin⟩ := not_or.mp hor
        rw [Bool.not_eq_true] at hdel
        rcases admitted hs hd hc hdel hin with he | ha
        · exact hex he
        · exact hanch ⟨hdel, ha⟩
      · rw [hold hn, Option.some_or]
        simp [hn]
  · obtain ⟨hl, hn, ha⟩ := (changeById_keptOf hs.good).mp hk
    obtain ⟨hc, rfl⟩ := lastChange_eq_some.mp hl
    obtain ⟨hnew, -⟩ := newer_settled (hd.versions t) (hs.content t c.id) hc
    have hin : c.deleted = false → c.id ∉ away t := by
      intro hdel hin
      rcases ha with hex | ⟨-, hanch⟩
      · rw [hs.absent hd hin] at hex
        cases hex
      · exact not_anchored_of_away hs hd hc hdel hin hanch
    simp only
    rw [settled, lastChange_append, hl, Option.some_or]
    simp only [hnew.mp hn, if_true]
    rcases hdel : c.deleted with _ | _
    · simp [hin hdel, contentOf_congr hs.base]
    · simp

/-! ### All runs -/

lemma Steady.of_initial {es : List Diff} (h : Steady s₀ away ds) (hp : es <+: ds) :
    Steady s₀ away es := by
  obtain ⟨rest, rfl⟩ := hp
  have hpre : ∀ {xs}, xs <+: es → xs <+: es ++ rest := fun hx => hx.trans (List.prefix_append _ _)
  refine ⟨fun t => ?_, ⟨h.outside.absent, ?_, ?_, ?_⟩, ?_, ?_, ?_⟩
  · have hv := h.versions t
    rw [allChanges_append, List.pairwise_append] at hv
    exact hv.1
  · exact fun xs hx => h.outside.node xs (hpre hx)
  · exact fun xs hx => h.outside.way xs (hpre hx)
  · exact fun xs hx => h.outside.relation xs (hpre hx)
  · exact fun xs hx => h.node xs (hpre hx)
  · exact fun xs hx => h.way xs (hpre hx)
  · exact fun xs hx => h.relation xs (hpre hx)

/-- **Every sequence of runs settles its diffs**, wherever the batches begin and end. -/
theorem follows_runs (hg : Good s₀.deltas) (fs : List Fetched)
    (hd : Steady s₀ away (fs.flatMap Fetched.diffs)) :
    Follows s₀ away (fs.flatMap Fetched.diffs) (runs s₀ fs) := by
  induction fs using List.reverseRecOn with
  | nil => exact ⟨hg, rfl, fun _ _ => rfl⟩
  | append_singleton fs f ih =>
    have hcat : (fs ++ [f]).flatMap Fetched.diffs = fs.flatMap Fetched.diffs ++ f.diffs := by simp
    rw [hcat] at hd ⊢
    rw [runs_append, runs_singleton]
    exact follows_runOnce (ih (hd.of_initial (List.prefix_append _ _))) hd

end Run

end OsmParquet.Batching
