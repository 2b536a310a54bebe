import OsmParquet.OneCell

/-!
What the extent filter keeps of a batch.

A change of an element that exists is always kept. A new node has to lie inside the extent, a new
way has to have a node that is known, and a new relation a member that exists. Known are for a way
the nodes that exist and those the same batch brings in, for a relation only what exists before
the batch. A dataset of the whole world drops the relations that a batch brings in together with
all their members.
-/

namespace OsmParquet.ExtentFilter

open OsmParquet.KeyedList OsmParquet.Rows OsmParquet.Tiers OsmParquet.TierSteps
open OsmParquet.ByidReads OsmParquet.Updater OsmParquet.Resolves OsmParquet.PrevCells
open OsmParquet.OneCell

lemma mem_memberIds {t : Typ} {rels : List (Change (List Member))} {i : ℤ} :
    i ∈ memberIds t rels ↔ ∃ c ∈ rels, ∃ m ∈ c.body, m.type = t ∧ m.ref = i := by
  simp [memberIds, and_assoc]

/-! ### What is kept -/

section Kept

variable {s : Root} {batch : Batch}

/-- What makes the filter keep a new element: a node inside the extent, a way with a node that
is known once the batch is applied, a relation with a member that exists before. -/
def Known (s : Root) (batch : Batch) : {t : Typ} → Change (Body t) → Prop
  | .node, c => ∃ p, c.body = some p ∧ s.base.extent.contains p = true
  | .way, c => ∃ n ∈ c.body, (cur s .node n).isSome ∨ n ∈ (extentFilter s batch .node).map Change.id
  | .relation, c => ∃ m ∈ c.body, (cur s m.type m.ref).isSome

lemma mem_keptNode (hg : Good s.deltas) {c : Change (Option Point)} :
    c ∈ extentFilter s batch .node ↔
    c ∈ batch .node ∧ ((cur s .node c.id).isSome ∨ c.deleted = false ∧
      Known (t := .node) s batch c) := by
  refine List.mem_filter.trans (and_congr_right fun hc => ?_)
  rw [Bool.or_eq_true, decide_eq_true_eq, mem_existsNode hg]
  have hid : c.id ∈ (batch .node).map Change.id := List.mem_map_of_mem hc
  refine or_congr (and_iff_right (Or.inl hid)) ?_
  simp [Known, Option.any_eq_true]

lemma mem_keptWay (hg : Good s.deltas) {c : Change (List ℤ)} : c ∈ extentFilter s batch .way ↔
    c ∈ batch .way ∧ ((cur s .way c.id).isSome ∨ c.deleted = false ∧
      Known (t := .way) s batch c) := by
  refine List.mem_filter.trans (and_congr_right fun hc => ?_)
  rw [Bool.or_eq_true, decide_eq_true_eq, mem_existsWay hg]
  have hid : c.id ∈ (batch .way).map Change.id := List.mem_map_of_mem hc
  have hknown : ∀ n ∈ c.body, n ∈ knownNodeIds s batch ↔
      (cur s .node n).isSome ∨ n ∈ (extentFilter s batch .node).map Change.id := by
    intro n hn
    rw [knownNodeIds, List.mem_append, mem_existsNode hg]
    have href : n ∈ (batch .way).flatMap Change.body := List.mem_flatMap.mpr ⟨c, hc, hn⟩
    exact or_congr_left (and_iff_right (Or.inr (Or.inl href)))
  refine or_congr (and_iff_right (Or.inl hid)) ?_
  simp only [Bool.and_eq_true, Bool.not_eq_true', List.any_eq_true, decide_eq_true_eq, Known]
  refine and_congr_right fun _ => exists_congr fun n => and_congr_right fun hn => ?_
  exact hknown n hn

lemma memberExists_iff (hg : Good s.deltas) {c : Change (List Member)} (hc : c ∈ batch .relation)
    {m : Member} (hm : m ∈ c.body) : memberExists s batch m = true ↔
    (cur s m.type m.ref).isSome := by
  have hmem : m.ref ∈ memberIds m.type (batch .relation) :=
    mem_memberIds.mpr ⟨c, hc, m, hm, rfl, rfl⟩
  unfold memberExists
  rcases hk : m.type with _ | _ | _
  · rw [hk] at hmem
    rw [decide_eq_true_eq, mem_existsNode hg]
    exact and_iff_right (Or.inr (Or.inr hmem))
  · rw [hk] at hmem
    rw [decide_eq_true_eq, mem_existsWay hg]
    exact and_iff_right (Or.inr hmem)
  · rw [hk] at hmem
    rw [decide_eq_true_eq, mem_existsRelation hg]
    exact and_iff_right (Or.inr hmem)

lemma mem_keptRelation (hg : Good s.deltas) {c : Change (List Member)} :
    c ∈ extentFilter s batch .relation ↔ c ∈ batch .relation ∧
      ((cur s .relation c.id).isSome ∨ c.deleted = false ∧ Known (t := .relation) s batch c) := by
  refine List.mem_filter.trans (and_congr_right fun hc => ?_)
  rw [Bool.or_eq_true, decide_eq_true_eq, mem_existsRelation hg]
  have hid : c.id ∈ (batch .relation).map Change.id := List.mem_map_of_mem hc
  refine or_congr (and_iff_right (Or.inl hid)) ?_
  simp only [Bool.and_eq_true, Bool.not_eq_true', List.any_eq_true, Known]
  refine and_congr_right fun _ => exists_congr fun m => and_congr_right fun hm => ?_
  exact memberExists_iff hg hc hm

/-- **What the filter keeps**: the changes of what exists, and what is known of the rest. -/
lemma mem_extentFilter (hg : Good s.deltas) {t : Typ} {c : Change (Body t)} :
    c ∈ extentFilter s batch t ↔
      c ∈ batch t ∧ ((cur s t c.id).isSome ∨ c.deleted = false ∧ Known s batch c) := by
  cases t with
  | node => exact mem_keptNode hg
  | way => exact mem_keptWay hg
  | relation => exact mem_keptRelation hg

end Kept

/-! ### The whole world -/

/-- The extent of a planet file. -/
def planet : Extent := ⟨-900000000, -1800000000, 900000000, 1800000000⟩

/-- A position on the globe. The reader leaves the position of a node out if it is not one. -/
def OnGlobe (p : Point) : Prop :=
  -900000000 ≤ p.lat ∧ p.lat ≤ 900000000 ∧ -1800000000 ≤ p.lon ∧ p.lon ≤ 1800000000

lemma planet_contains {p : Point} (h : OnGlobe p) : planet.contains p = true := by
  obtain ⟨h1, h2, h3, h4⟩ := h
  simp [Extent.contains, planet, h1, h2, h3, h4]

/-- The batch has the node, with a position. -/
def LiveNode (batch : Batch) (n : ℤ) : Prop :=
  ∃ c ∈ batch .node, c.id = n ∧ c.deleted = false ∧ c.body.isSome

/-- The filter drops nothing that lives: no node with a position, no way with a node that exists
or is in the batch, no relation with a member that exists or is kept. -/
structure KeepsLive (s : Root) (batch : Batch) : Prop where
  node : ∀ c ∈ batch .node, c.deleted = false → c.body.isSome → c ∈ extentFilter s batch .node
  way : ∀ c ∈ batch .way, c.deleted = false →
    (∃ n ∈ c.body, (cur s .node n).isSome ∨ LiveNode batch n) → c ∈ extentFilter s batch .way
  relation : ∀ c ∈ batch .relation, c.deleted = false →
    (∃ m ∈ c.body, (cur s m.type m.ref).isSome ∨
      m.ref ∈ (extentFilter s batch m.type).map Change.id) →
    c ∈ extentFilter s batch .relation

/-- The batch brings the element in: a node with a position, a way with a node that exists or is
brought in, a relation with a member that exists. -/
def BroughtIn (s : Root) (batch : Batch) : Typ → ℤ → Prop
  | .node, i => LiveNode batch i
  | .way, i => ∃ c ∈ batch .way, c.id = i ∧ c.deleted = false ∧
      ∃ n ∈ c.body, (cur s .node n).isSome ∨ LiveNode batch n
  | .relation, i => ∃ c ∈ batch .relation, c.id = i ∧ c.deleted = false ∧
      ∃ m ∈ c.body, (cur s m.type m.ref).isSome

section World

variable {s : Root} {batch : Batch} (hg : Good s.deltas) (hw : s.base.extent = planet)
  (hp : ∀ c ∈ batch .node, ∀ p, c.body = some p → OnGlobe p)
include hg hw hp

lemma node_kept_of_live {c : Change (Option Point)} (hc : c ∈ batch .node) (hd : c.deleted = false)
    (hb : c.body.isSome) : c ∈ extentFilter s batch .node := by
  obtain ⟨p, hbp⟩ := Option.isSome_iff_exists.mp hb
  refine (mem_keptNode hg).mpr ⟨hc, Or.inr ⟨hd, p, hbp, ?_⟩⟩
  rw [hw]
  exact planet_contains (hp c hc p hbp)

/-- A node is known to the ways if it exists or the batch has it with a position. -/
lemma node_known_iff {n : ℤ} :
    ((cur s .node n).isSome ∨ n ∈ (extentFilter s batch .node).map Change.id) ↔
    (cur s .node n).isSome ∨ LiveNode batch n := by
  refine ⟨?_, ?_⟩
  · rintro (hex | hk)
    · exact Or.inl hex
    · obtain ⟨c, hc, rfl⟩ := List.mem_map.mp hk
      obtain ⟨hb, hex | ⟨hd, p, hbp, -⟩⟩ := (mem_keptNode hg).mp hc
      · exact Or.inl hex
      · exact Or.inr ⟨c, hb, rfl, hd, by rw [hbp]; rfl⟩
  · rintro (hex | ⟨c, hc, rfl, hd, hb⟩)
    · exact Or.inl hex
    · exact Or.inr (List.mem_map_of_mem (node_kept_of_live hg hw hp hc hd hb))

lemma way_kept_of_live {c : Change (List ℤ)} (hc : c ∈ batch .way) (hd : c.deleted = false)
    (h : ∃ n ∈ c.body, (cur s .node n).isSome ∨ LiveNode batch n) :
    c ∈ extentFilter s batch .way := by
  obtain ⟨n, hn, hknown⟩ := h
  exact (mem_keptWay hg).mpr ⟨hc, Or.inr ⟨hd, n, hn, (node_known_iff hg hw hp).mpr hknown⟩⟩

/-- What the filter keeps of an element that is not there is what the batch brings in. -/
lemma kept_iff_broughtIn {t : Typ} {i : ℤ} (hi : cur s t i = none) :
    i ∈ (extentFilter s batch t).map Change.id ↔ BroughtIn s batch t i := by
  have hnew : ∀ {c : Change (Body t)}, c.id = i → (c ∈ extentFilter s batch t ↔
      c ∈ batch t ∧ c.deleted = false ∧ Known s batch c) := by
    intro c hid
    rw [mem_extentFilter hg, hid, hi]
    simp
  rw [List.mem_map]
  cases t with
  | node =>
    refine ⟨?_, ?_⟩
    · rintro ⟨c, hc, hid⟩
      obtain ⟨hb, hd, p, hbp, -⟩ := (hnew hid).mp hc
      exact ⟨c, hb, hid, hd, by rw [hbp]; rfl⟩
    · rintro ⟨c, hc, hid, hd, hb⟩
      exact ⟨c, node_kept_of_live hg hw hp hc hd hb, hid⟩
  | way =>
    refine ⟨?_, ?_⟩
    · rintro ⟨c, hc, hid⟩
      obtain ⟨hb, hd, n, hn, hknown⟩ := (hnew hid).mp hc
      exact ⟨c, hb, hid, hd, n, hn, (node_known_iff hg hw hp).mp hknown⟩
    · rintro ⟨c, hc, hid, hd, h⟩
      exact ⟨c, way_kept_of_live hg hw hp hc hd h, hid⟩
  | relation =>
    refine ⟨?_, ?_⟩
    · rintro ⟨c, hc, hid⟩
      obtain ⟨hb, hd, hknown⟩ := (hnew hid).mp hc
      exact ⟨c, hb, hid, hd, hknown⟩
    · rintro ⟨c, hc, hid, hd, h⟩
      exact ⟨c, (hnew hid).mpr ⟨hc, hd, h⟩, hid⟩

/-- A batch is kept whole unless it has a new relation without an existing member, of which it
brings a member in. -/
lemma keepsLive_iff : KeepsLive s batch ↔ ∀ c ∈ batch .relation, c.deleted = false →
    cur s .relation c.id = none → (∀ m ∈ c.body, cur s m.type m.ref = none) →
    ∀ m ∈ c.body, ¬ BroughtIn s batch m.type m.ref := by
  refine ⟨?_, ?_⟩
  · intro h c hc hd hnew hnone m hm hin
    have hk : m.ref ∈ (extentFilter s batch m.type).map Change.id :=
      (kept_iff_broughtIn hg hw hp (hnone m hm)).mpr hin
    obtain ⟨-, hex | ⟨-, m', hm', hex⟩⟩ :=
      (mem_keptRelation hg).mp (h.relation c hc hd ⟨m, hm, Or.inr hk⟩)
    · rw [hnew] at hex
      cases hex
    · rw [hnone m' hm'] at hex
      cases hex
  · intro h
    refine ⟨fun c => node_kept_of_live hg hw hp, fun c => way_kept_of_live hg hw hp, ?_⟩
    rintro c hc hd ⟨m, hm, hor⟩
    refine (mem_keptRelation hg).mpr ⟨hc, ?_⟩
    by_contra hnot
    obtain ⟨hex, hknown⟩ := not_or.mp hnot
    have hnone : ∀ m ∈ c.body, cur s m.type m.ref = none := by
      intro m hm
      rw [← Option.not_isSome_iff_eq_none]
      exact fun hsome => hknown ⟨hd, m, hm, hsome⟩
    have hnew := Option.not_isSome_iff_eq_none.mp hex
    rcases hor with hsome | hk
    · rw [hnone m hm] at hsome
      cases hsome
    · exact h c hc hd hnew hnone m hm ((kept_iff_broughtIn hg hw hp (hnone m hm)).mp hk)

end World

/-- **When the filter drops nothing of a planet file**: exactly when every new relation of which
the batch brings a member in has also a member that exists before. -/
theorem planet_keepsLive_iff (b : Base) (fs : List Fetched) (batch : Batch) (hw : b.extent = planet)
    (hp : ∀ c ∈ batch .node, ∀ p, c.body = some p → OnGlobe p) :
    KeepsLive (runs (fresh b) fs) batch ↔ ∀ c ∈ batch .relation, c.deleted = false →
      cur (runs (fresh b) fs) .relation c.id = none →
      (∀ m ∈ c.body, cur (runs (fresh b) fs) m.type m.ref = none) →
      ∀ m ∈ c.body, ¬ BroughtIn (runs (fresh b) fs) batch m.type m.ref := by
  have hb : (runs (fresh b) fs).base.extent = planet := by
    rw [base_runs]
    exact hw
  exact keepsLive_iff (good_runs (good_fresh b) fs) hb hp

/-- A dataset with one node. -/
def lone : World where
  rows
    | .node => [node 1 ⟨0, 0⟩]
    | .way => []
    | .relation => []
  once t := by cases t <;> simp [Distinct]
  placed t := by cases t <;> decide
  refs := no_refs

/-- An upload of a node, a way and a relation of both. -/
def upload (ms : List Member) : Batch
  | .node => [change 2 1 (some ⟨5, 5⟩)]
  | .way => [change 1 1 [1, 2]]
  | .relation => [change 1 1 ms]

theorem planet_keepsLive_old_member : (∀ c ∈ upload [⟨.node, 1, ""⟩, ⟨.way, 1, ""⟩] .relation,
      c.deleted = false → cur (runs (fresh lone.base) []) .relation c.id = none →
      (∀ m ∈ c.body, cur (runs (fresh lone.base) []) m.type m.ref = none) →
      ∀ m ∈ c.body, ¬ BroughtIn (runs (fresh lone.base) []) (upload [⟨.node, 1, ""⟩, ⟨.way, 1, ""⟩])
        m.type m.ref) ∧
    KeepsLive (runs (fresh lone.base) []) (upload [⟨.node, 1, ""⟩, ⟨.way, 1, ""⟩]) := by
  have hold : ∀ c ∈ upload [⟨.node, 1, ""⟩, ⟨.way, 1, ""⟩] .relation,
      ∃ m ∈ c.body, (cur (runs (fresh lone.base) []) m.type m.ref).isSome := by decide
  have hcond : ∀ c ∈ upload [⟨.node, 1, ""⟩, ⟨.way, 1, ""⟩] .relation,
      c.deleted = false → cur (runs (fresh lone.base) []) .relation c.id = none →
      (∀ m ∈ c.body, cur (runs (fresh lone.base) []) m.type m.ref = none) →
      ∀ m ∈ c.body, ¬ BroughtIn (runs (fresh lone.base) []) (upload [⟨.node, 1, ""⟩, ⟨.way, 1, ""⟩])
        m.type m.ref := by
    intro c hc _ _ hnone
    obtain ⟨m, hm, hex⟩ := hold c hc
    rw [hnone m hm] at hex
    cases hex
  refine ⟨hcond, (planet_keepsLive_iff lone.base [] _ rfl ?_).mpr hcond⟩
  intro c hc p hcp
  simp only [upload, List.mem_singleton] at hc
  subst hc
  cases hcp
  exact ⟨by decide, by decide, by decide, by decide⟩

/-- A relation whose members come with it is dropped. -/
theorem planet_drops_new_relation : lone.base.extent = planet ∧
    ¬ KeepsLive (fresh lone.base) (upload [⟨.node, 2, ""⟩, ⟨.way, 1, ""⟩]) := by
  refine ⟨rfl, fun h => ?_⟩
  have hmem := h.relation (change 1 1 [⟨.node, 2, ""⟩, ⟨.way, 1, ""⟩])
    (List.mem_singleton.mpr rfl) rfl ⟨⟨.node, 2, ""⟩, List.mem_cons_self, Or.inr (by decide)⟩
  have hempty : extentFilter (fresh lone.base) (upload [⟨.node, 2, ""⟩, ⟨.way, 1, ""⟩])
      .relation = [] := by
    rw [List.eq_nil_iff_length_eq_zero]
    decide
  rw [hempty] at hmem
  cases hmem

end OsmParquet.ExtentFilter
