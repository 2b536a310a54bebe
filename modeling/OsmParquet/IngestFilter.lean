import OsmParquet.HistoryStates

/-!
What the ingest of a history keeps of an extract.

The contract gives a rule for the versions in the order of time: a node is kept inside the extent,
a way with a known node, a relation with a known member, and every later version of what is known.
The ingest computes for every element the first time at which it is known, type by type, with two
passes over the relations. The second pass counts the members that are relations as the first one
left them, so that a relation is known through its nodes and ways, or through a member that is.
-/

namespace OsmParquet.IngestFilter

open OsmParquet.KeyedList OsmParquet.Rows OsmParquet.Tiers OsmParquet.Updater
open OsmParquet.HistoryStates

/-! ### The filter -/

/-- The versions in the order in which they were read, each with its number. -/
abbrev ReadRows := (t : Typ) → List (ℕ × Version t)

abbrev Versions := (t : Typ) → List (Version t)

/-- Of the rows with one id and version the one that was read last. -/
def dedupRows {t : Typ} (rows : List (ℕ × Version t)) : List (ℕ × Version t) :=
  firstPerKey (fun r => (r.2.id, r.2.version)) (rows.insertionSort fun a b => b.1 ≤ a.1)

/-- The first of some times, by id. -/
def firstTs {t : Typ} (versions : List (Version t)) (known : Version t → Bool) (i : ℤ) : Option ℤ :=
  ((versions.filter fun v => decide (v.id = i) && known v).map Version.timestamp).min?

def knownBy (first : Option ℤ) (ts : ℤ) : Bool := first.any fun x => x ≤ ts

section FirstKnown

variable (extent : Extent) (vs : Versions)

def nodeFirstKnown : ℤ → Option ℤ :=
  firstTs (vs .node) fun n => n.visible && (n.body : Option Point).any extent.contains

/-- The versions of a way are grouped by time, and a group has a known node if one of them has. -/
def wayFirstKnown : ℤ → Option ℤ :=
  firstTs (vs .way) fun w => w.visible && (w.body : List ℤ).any fun n =>
    knownBy (nodeFirstKnown extent vs n) w.timestamp

/-- A pass over the relations. Members that are relations count as `extra` has them; in the first
pass they do not count. -/
def relationFirstKnownPass (extra : Option (ℤ → Option ℤ)) : ℤ → Option ℤ :=
  firstTs (vs .relation) fun r => r.visible && (r.body : List Member).any fun m =>
    match m.type with
    | .node => knownBy (nodeFirstKnown extent vs m.ref) r.timestamp
    | .way => knownBy (wayFirstKnown extent vs m.ref) r.timestamp
    | .relation => extra.any fun f => knownBy (f m.ref) r.timestamp

def relationFirstKnown : ℤ → Option ℤ :=
  relationFirstKnownPass extent vs (some (relationFirstKnownPass extent vs none))

def firstKnown : Typ → ℤ → Option ℤ
  | .node => nodeFirstKnown extent vs
  | .way => wayFirstKnown extent vs
  | .relation => relationFirstKnown extent vs

end FirstKnown

/-- The rows that are left, how many there are of every type, and since when the history is
complete. -/
structure Filtered where
  raw : Versions
  counts : Typ → ℕ
  since : Option ℤ

def allTimes (rows : ReadRows) (p : ℕ → Bool) : List ℤ :=
  let times {t : Typ} (l : List (ℕ × Version t)) :=
    (l.filter fun r => p r.1).map fun r => r.2.timestamp
  times (rows .node) ++ times (rows .way) ++ times (rows .relation)

def dedupAndExtentFilter (extent : Extent) (baseOrdMax : ℕ) (isOsh : Bool) (rows : ReadRows) :
    Filtered :=
  let unique : ReadRows := fun t => dedupRows (rows t)
  let vs : Versions := fun t => (unique t).map Prod.snd
  let raw : Versions := fun t => (vs t).filter fun v =>
    knownBy (firstKnown extent vs t v.id) v.timestamp
  { raw
    counts := fun t => (raw t).length
    since := if isOsh then (allTimes unique fun _ => true).min?
      else (allTimes unique fun ord => ord ≤ baseOrdMax).max? }

/-- The versions that the filter looks at. -/
def uniqueVersions (rows : ReadRows) : Versions := fun t => (dedupRows (rows t)).map Prod.snd

/-! ### The rule -/

abbrev AnyVersion := (t : Typ) × Version t

def timeOf (v : AnyVersion) : ℤ := v.2.timestamp

/-- What makes a relation a known member: that it is known, as the contract says, or that it is
known through a node or a way. -/
inductive Nesting
  | anyDepth | oneLevel
  deriving DecidableEq, Repr

/-- What is known at a time; the relations that are known through a node or a way are also kept
apart. -/
structure Known where
  ids : List (Typ × ℤ)
  direct : List ℤ

section Rule

variable (nesting : Nesting) (extent : Extent)

/-- A node or a way that is known. -/
def partKnown (k : Known) (m : Member) : Bool :=
  decide (m.type ≠ .relation) && decide ((m.type, m.ref) ∈ k.ids)

def memberKnown (k : Known) (m : Member) : Bool :=
  match m.type, nesting with
  | .relation, .oneLevel => decide (m.ref ∈ k.direct)
  | t, _ => decide ((t, m.ref) ∈ k.ids)

/-- The version makes its element known. A deletion does not. -/
def brings (k : Known) : AnyVersion → Bool
  | ⟨.node, v⟩ => v.visible && (v.body : Option Point).any extent.contains
  | ⟨.way, v⟩ => v.visible && (v.body : List ℤ).any fun n => decide ((Typ.node, n) ∈ k.ids)
  | ⟨.relation, v⟩ => v.visible && (v.body : List Member).any (memberKnown nesting k)

def bringsDirectly (k : Known) : AnyVersion → Bool
  | ⟨.relation, v⟩ => v.visible && (v.body : List Member).any (partKnown k)
  | _ => false

/-- A version is kept if it makes its element known or the element is known already. -/
def keeps (k : Known) (v : AnyVersion) : Bool :=
  brings nesting extent k v || decide ((v.1, v.2.id) ∈ k.ids)

def learn (k : Known) (v : AnyVersion) : Known where
  ids := if keeps nesting extent k v then (v.1, v.2.id) :: k.ids else k.ids
  direct := if bringsDirectly k v then v.2.id :: k.direct else k.direct

/-- The versions that are kept, one after the other. -/
def keptFrom (k : Known) : List AnyVersion → List AnyVersion
  | [] => []
  | v :: l =>
    if keeps nesting extent k v then v :: keptFrom (learn nesting extent k v) l
    else keptFrom (learn nesting extent k v) l

/-- All versions. -/
def allVersions (vs : Versions) : List AnyVersion :=
  (vs .node).map (Sigma.mk .node) ++ (vs .way).map (Sigma.mk .way) ++
    (vs .relation).map (Sigma.mk .relation)

/-- The rule in the order of time. -/
def keptInOrder (vs : Versions) : List AnyVersion :=
  keptFrom nesting extent ⟨[], []⟩ ((allVersions vs).insertionSort fun a b => timeOf a ≤ timeOf b)

end Rule

/-! ### The first times -/

section FirstTimes

variable {extent : Extent} {vs : Versions}

lemma knownBy_firstTs {t : Typ} {versions : List (Version t)}
    {known : Version t → Bool} {i ts : ℤ} : knownBy (firstTs versions known i) ts = true ↔
      ∃ v ∈ versions, v.id = i ∧ known v = true ∧ v.timestamp ≤ ts := by
  constructor
  · intro h
    obtain ⟨x, hx, hle⟩ : ∃ x, firstTs versions known i = some x ∧ x ≤ ts := by
      simpa [knownBy, Option.any_eq_true] using h
    obtain ⟨v, hv, rfl⟩ := List.mem_map.mp (List.min?_eq_some_iff.mp hx).1
    obtain ⟨hmem, hcond⟩ := List.mem_filter.mp hv
    rw [Bool.and_eq_true, decide_eq_true_eq] at hcond
    exact ⟨v, hmem, hcond.1, hcond.2, hle⟩
  · rintro ⟨v, hv, hid, hk, hle⟩
    have hmem : v.timestamp ∈ (versions.filter fun v => decide (v.id = i) && known v).map
        Version.timestamp :=
      List.mem_map_of_mem (List.mem_filter.mpr ⟨hv, by simp [hid, hk]⟩)
    obtain ⟨x, hx⟩ := Option.isSome_iff_exists.mp (List.isSome_min?_of_mem hmem)
    have hmin := (List.min?_eq_some_iff.mp hx).2 _ hmem
    simpa [knownBy, firstTs, hx] using le_trans hmin hle

/-- The version makes its relation known in the first pass. -/
def directBy (extent : Extent) (vs : Versions) (r : Version .relation) : Bool :=
  r.visible && (r.body : List Member).any fun m =>
    match m.type with
    | .node => knownBy (nodeFirstKnown extent vs m.ref) r.timestamp
    | .way => knownBy (wayFirstKnown extent vs m.ref) r.timestamp
    | .relation => false

/-- The version makes its element known. -/
def broughtBy (extent : Extent) (vs : Versions) : AnyVersion → Bool
  | ⟨.node, n⟩ => n.visible && (n.body : Option Point).any extent.contains
  | ⟨.way, w⟩ => w.visible && (w.body : List ℤ).any fun n =>
      knownBy (nodeFirstKnown extent vs n) w.timestamp
  | ⟨.relation, r⟩ => r.visible && (r.body : List Member).any fun m =>
      match m.type with
      | .node => knownBy (nodeFirstKnown extent vs m.ref) r.timestamp
      | .way => knownBy (wayFirstKnown extent vs m.ref) r.timestamp
      | .relation => knownBy (relationFirstKnownPass extent vs none m.ref) r.timestamp

lemma knownBy_firstKnown {t : Typ} {i ts : ℤ} : knownBy (firstKnown extent vs t i) ts = true ↔
    ∃ v ∈ vs t, v.id = i ∧ broughtBy extent vs ⟨t, v⟩ = true ∧ v.timestamp ≤ ts := by
  cases t with
  | node => exact knownBy_firstTs
  | way => exact knownBy_firstTs
  | relation => exact knownBy_firstTs

lemma knownBy_firstPass {i ts : ℤ} :
    knownBy (relationFirstKnownPass extent vs none i) ts = true ↔
      ∃ v ∈ vs .relation, v.id = i ∧ directBy extent vs v = true ∧ v.timestamp ≤ ts :=
  knownBy_firstTs

/-- What the first pass finds the second pass finds too. -/
lemma broughtBy_of_directBy {r : Version .relation} (h : directBy extent vs r = true) :
    broughtBy extent vs ⟨.relation, r⟩ = true := by
  obtain ⟨hvis, hm⟩ := Bool.and_eq_true_iff.mp h
  obtain ⟨m, hmem, hm⟩ := List.any_eq_true.mp hm
  refine Bool.and_eq_true_iff.mpr ⟨hvis, List.any_eq_true.mpr ⟨m, hmem, ?_⟩⟩
  cases ht : m.type <;> simp_all

end FirstTimes

/-! ### The versions one after the other -/

section Order

variable {extent : Extent} {vs : Versions}

lemma brings_of_bringsDirectly {nesting : Nesting} {k : Known} {r : Version .relation}
    (h : bringsDirectly k ⟨.relation, r⟩ = true) :
    brings nesting extent k ⟨.relation, r⟩ = true := by
  obtain ⟨hvis, h⟩ := Bool.and_eq_true_iff.mp h
  obtain ⟨m, hmem, hm⟩ := List.any_eq_true.mp h
  refine Bool.and_eq_true_iff.mpr ⟨hvis, List.any_eq_true.mpr ⟨m, hmem, ?_⟩⟩
  obtain ⟨hne, hm⟩ := Bool.and_eq_true_iff.mp hm
  cases ht : m.type <;> simp_all [memberKnown]

lemma mem_allVersions {t : Typ} {v : Version t} :
    (⟨t, v⟩ : AnyVersion) ∈ allVersions vs ↔ v ∈ vs t := by
  cases t <;> simp [allVersions]

/-- The rule has learned from the versions of `P` what the first times say about them. -/
structure Agrees (extent : Extent) (vs : Versions) (P : List AnyVersion) (k : Known) : Prop where
  ids : ∀ t i, (t, i) ∈ k.ids ↔ ∃ v : Version t, ⟨t, v⟩ ∈ P ∧ v.id = i ∧
    broughtBy extent vs ⟨t, v⟩ = true
  direct : ∀ i, i ∈ k.direct ↔
    ∃ v : Version .relation, ⟨.relation, v⟩ ∈ P ∧ v.id = i ∧ directBy extent vs v = true

/-- `u` comes after the versions of `P` and before all others. -/
def NextAfter (vs : Versions) (P : List AnyVersion) (u : AnyVersion) : Prop :=
  ∀ (t : Typ) (v : Version t), v ∈ vs t ∧ v.timestamp ≤ timeOf u ↔ ⟨t, v⟩ ∈ P ∨
    (⟨t, v⟩ : AnyVersion) = u

lemma nextAfter_of_sorted {P S : List AnyVersion} {u : AnyVersion}
    (all : (P ++ u :: S).Perm (allVersions vs))
    (sorted : (P ++ u :: S).Pairwise fun a b => timeOf a < timeOf b) : NextAfter vs P u := by
  intro t v
  rw [← mem_allVersions, ← all.mem_iff]
  obtain ⟨-, hS, hP⟩ := List.pairwise_append.mp sorted
  constructor
  · rintro ⟨hv, hle⟩
    rcases List.mem_append.mp hv with hv | hv
    · exact .inl hv
    · rcases List.mem_cons.mp hv with hv | hv
      · exact .inr hv
      · exact absurd ((List.pairwise_cons.mp hS).1 _ hv) (not_lt.mpr hle)
  · rintro (hv | rfl)
    · exact ⟨List.mem_append_left _ hv, (hP _ hv _ List.mem_cons_self).le⟩
    · exact ⟨by simp, le_rfl⟩

section Step

variable {P : List AnyVersion} {k : Known} (agrees : Agrees extent vs P k)
include agrees

/-- What the rule knows when `u` comes is what is known by the time of `u`, the versions of `u`
itself apart. -/
lemma mem_ids_eq {u : AnyVersion} (next : NextAfter vs P u) {t : Typ} {i : ℤ} (ht : t ≠ u.1) :
    decide ((t, i) ∈ k.ids) = knownBy (firstKnown extent vs t i) (timeOf u) := by
  rw [Bool.eq_iff_iff, decide_eq_true_eq, agrees.ids, knownBy_firstKnown]
  constructor
  · rintro ⟨v, hv, hid, hb⟩
    obtain ⟨hmem, hle⟩ := (next t v).mpr (.inl hv)
    exact ⟨v, hmem, hid, hb, hle⟩
  · rintro ⟨v, hmem, hid, hb, hle⟩
    refine ⟨v, ?_, hid, hb⟩
    rcases (next t v).mp ⟨hmem, hle⟩ with hv | rfl
    · exact hv
    · exact absurd rfl ht

lemma bringsDirectly_relation {r : Version .relation} (next : NextAfter vs P ⟨.relation, r⟩) :
    bringsDirectly k ⟨.relation, r⟩ = directBy extent vs r := by
  show (r.visible && (r.body : List Member).any (partKnown k)) = _
  unfold directBy
  congr 2
  funext m
  unfold partKnown
  cases ht : m.type with
  | node => exact mem_ids_eq agrees next (by simp)
  | way => exact mem_ids_eq agrees next (by simp)
  | relation => rfl

/-- A relation that is known through itself is known without it, so that the members that are
relations can be looked up among the versions before. -/
lemma brings_relation {r : Version .relation} (next : NextAfter vs P ⟨.relation, r⟩) :
    brings .oneLevel extent k ⟨.relation, r⟩ = broughtBy extent vs ⟨.relation, r⟩ := by
  have direct := bringsDirectly_relation agrees next
  cases hd : directBy extent vs r with
  | true => rw [broughtBy_of_directBy hd, brings_of_bringsDirectly (direct.trans hd)]
  | false =>
    show (r.visible && (r.body : List Member).any (memberKnown .oneLevel k)) = _
    unfold broughtBy
    congr 2
    funext m
    unfold memberKnown
    cases ht : m.type with
    | node => exact mem_ids_eq agrees next (by simp)
    | way => exact mem_ids_eq agrees next (by simp)
    | relation =>
      rw [Bool.eq_iff_iff, decide_eq_true_eq, agrees.direct, knownBy_firstPass]
      constructor
      · rintro ⟨v, hv, hid, hb⟩
        obtain ⟨hmem, hle⟩ := (next .relation v).mpr (.inl hv)
        exact ⟨v, hmem, hid, hb, hle⟩
      · rintro ⟨v, hmem, hid, hb, hle⟩
        refine ⟨v, ?_, hid, hb⟩
        rcases (next .relation v).mp ⟨hmem, hle⟩ with hv | hv
        · exact hv
        · cases hv
          rw [hd] at hb
          contradiction

/-- What the rule finds about a version is what the first times say about it. -/
lemma brings_eq {u : AnyVersion} (next : NextAfter vs P u) :
    brings .oneLevel extent k u = broughtBy extent vs u := by
  obtain ⟨t, v⟩ := u
  cases t with
  | node => rfl
  | way =>
    show (v.visible && (v.body : List ℤ).any fun n => decide ((Typ.node, n) ∈ k.ids)) = _
    unfold broughtBy
    congr 2
    funext n
    exact mem_ids_eq agrees next (by simp)
  | relation => exact brings_relation agrees next

lemma keeps_eq {u : AnyVersion} (next : NextAfter vs P u) :
    keeps .oneLevel extent k u = knownBy (firstKnown extent vs u.1 u.2.id) (timeOf u) := by
  obtain ⟨t, v⟩ := u
  rw [keeps, brings_eq agrees next, Bool.eq_iff_iff, Bool.or_eq_true, decide_eq_true_eq, agrees.ids,
    knownBy_firstKnown]
  constructor
  · rintro (hb | ⟨w, hw, hid, hb⟩)
    · exact ⟨v, ((next t v).mpr (.inr rfl)).1, rfl, hb, le_rfl⟩
    · obtain ⟨hmem, hle⟩ := (next t w).mpr (.inl hw)
      exact ⟨w, hmem, hid, hb, hle⟩
  · rintro ⟨w, hmem, hid, hb, hle⟩
    rcases (next t w).mp ⟨hmem, hle⟩ with hw | hw
    · exact .inr ⟨w, hw, hid, hb⟩
    · exact .inl (hw ▸ hb)

/-- A version that is kept but does not make its element known adds nothing. -/
lemma mem_learn_ids {u : AnyVersion} (next : NextAfter vs P u) {key : Typ × ℤ} :
    key ∈ (learn .oneLevel extent k u).ids ↔
      key ∈ k.ids ∨ key = (u.1, u.2.id) ∧ broughtBy extent vs u = true := by
  have hu : keeps .oneLevel extent k u = true ↔
      broughtBy extent vs u = true ∨ (u.1, u.2.id) ∈ k.ids := by
    rw [keeps, brings_eq agrees next, Bool.or_eq_true, decide_eq_true_eq]
  by_cases hk : keeps .oneLevel extent k u = true
  · rw [learn, if_pos hk, List.mem_cons]
    constructor
    · rintro (rfl | h)
      · exact (hu.mp hk).symm.imp_right fun hb => ⟨rfl, hb⟩
      · exact .inl h
    · rintro (h | ⟨h, -⟩)
      exacts [.inr h, .inl h]
  · rw [learn, if_neg hk]
    exact ⟨.inl, fun h => h.resolve_right fun h => hk (hu.mpr (.inl h.2))⟩

lemma agrees_learn {u : AnyVersion} (next : NextAfter vs P u) :
    Agrees extent vs (P ++ [u]) (learn .oneLevel extent k u) where
  ids t i := by
    rw [mem_learn_ids agrees next, agrees.ids]
    constructor
    · rintro (⟨v, hv, hb⟩ | ⟨hkey, hb⟩)
      · exact ⟨v, List.mem_append_left _ hv, hb⟩
      · obtain ⟨t', v⟩ := u
        obtain ⟨rfl, rfl⟩ := Prod.mk.inj hkey
        exact ⟨v, by simp, rfl, hb⟩
    · rintro ⟨v, hv, rfl, hb⟩
      rcases List.mem_append.mp hv with hv | hv
      · exact .inl ⟨v, hv, rfl, hb⟩
      · obtain rfl := List.mem_singleton.mp hv
        exact .inr ⟨rfl, hb⟩
  direct i := by
    show i ∈ (if bringsDirectly k u then u.2.id :: k.direct else k.direct) ↔ _
    split_ifs with hd
    · obtain ⟨t, r⟩ := u
      cases t with
      | node => contradiction
      | way => contradiction
      | relation =>
        rw [bringsDirectly_relation agrees next] at hd
        rw [List.mem_cons, agrees.direct]
        constructor
        · rintro (rfl | ⟨v, hv, hb⟩)
          · exact ⟨r, by simp, rfl, hd⟩
          · exact ⟨v, List.mem_append_left _ hv, hb⟩
        · rintro ⟨v, hv, rfl, hb⟩
          rcases List.mem_append.mp hv with hv | hv
          · exact .inr ⟨v, hv, rfl, hb⟩
          · cases List.mem_singleton.mp hv
            exact .inl rfl
    · rw [agrees.direct]
      constructor
      · rintro ⟨v, hv, hb⟩
        exact ⟨v, List.mem_append_left _ hv, hb⟩
      · rintro ⟨v, hv, hid, hb⟩
        rcases List.mem_append.mp hv with hv | hv
        · exact ⟨v, hv, hid, hb⟩
        · obtain rfl := List.mem_singleton.mp hv
          exact absurd ((bringsDirectly_relation agrees next).trans hb) hd

end Step

/-- The rule keeps of the versions to come those that are known by their time. -/
lemma keptFrom_eq_filter {P S : List AnyVersion} {k : Known} (agrees : Agrees extent vs P k)
    (all : (P ++ S).Perm (allVersions vs))
    (sorted : (P ++ S).Pairwise fun a b => timeOf a < timeOf b) :
    keptFrom .oneLevel extent k S =
      S.filter fun u => knownBy (firstKnown extent vs u.1 u.2.id) (timeOf u) := by
  induction S generalizing P k with
  | nil => rfl
  | cons u S ih =>
    have next := nextAfter_of_sorted all sorted
    have rest := ih (agrees_learn agrees next) (by simpa using all) (by simpa using sorted)
    rw [keptFrom, List.filter_cons, ← keeps_eq agrees next, rest]

lemma sorted_of_distinct (distinct : ((allVersions vs).map timeOf).Nodup) :
    ((allVersions vs).insertionSort fun a b => timeOf a ≤ timeOf b).Pairwise
      fun a b => timeOf a < timeOf b := by
  have perm := List.perm_insertionSort (fun a b => timeOf a ≤ timeOf b) (allVersions vs)
  have hle := List.pairwise_insertionSort (fun a b => timeOf a ≤ timeOf b) (allVersions vs)
  have hne := List.pairwise_map.mp ((perm.map timeOf).nodup_iff.mpr distinct)
  exact hle.imp₂ (fun _ _ h h' => lt_of_le_of_ne h h') hne

lemma mem_keptInOrder (distinct : ((allVersions vs).map timeOf).Nodup) {t : Typ} {v : Version t} :
    (⟨t, v⟩ : AnyVersion) ∈ keptInOrder .oneLevel extent vs ↔
      v ∈ vs t ∧ knownBy (firstKnown extent vs t v.id) v.timestamp = true := by
  have perm := List.perm_insertionSort (fun a b => timeOf a ≤ timeOf b) (allVersions vs)
  have start : Agrees extent vs [] ⟨[], []⟩ := ⟨by simp, by simp⟩
  have hall :=
    keptFrom_eq_filter (S := (allVersions vs).insertionSort fun a b => timeOf a ≤ timeOf b)
    start perm (sorted_of_distinct distinct)
  rw [keptInOrder, hall, List.mem_filter, perm.mem_iff, mem_allVersions]
  rfl

end Order

/-- The versions that the ingest keeps are those of the rule, where a member that is a relation
counts when it is known through a node or a way of its own. -/
theorem dedupAndExtentFilter_raw (extent : Extent) (baseOrdMax : ℕ) (isOsh : Bool) (rows : ReadRows)
    (distinct : ((allVersions (uniqueVersions rows)).map timeOf).Nodup) (t : Typ) (v : Version t) :
    v ∈ (dedupAndExtentFilter extent baseOrdMax isOsh rows).raw t ↔
      ⟨t, v⟩ ∈ keptInOrder .oneLevel extent (uniqueVersions rows) := by
  rw [mem_keptInOrder distinct]
  exact List.mem_filter

def versionAt {t : Typ} (i ts : ℤ) (body : Body t) : Version t :=
  ⟨i, 1, none, body, 1, ts, none, "", true⟩

/-- A node, a relation that has it, a relation that has the relation, and one that has this. -/
def nested : ReadRows
  | .node => [(1, versionAt 1 10 (some (⟨0, 0⟩ : Point) : Option Point))]
  | .way => []
  | .relation => [(2, versionAt 1 20 ([⟨.node, 1, ""⟩] : List Member)),
      (3, versionAt 2 30 ([⟨.relation, 1, ""⟩] : List Member)),
      (4, versionAt 3 40 ([⟨.relation, 2, ""⟩] : List Member))]

lemma nested_distinct : ((allVersions (uniqueVersions nested)).map timeOf).Nodup := by decide

theorem dedupAndExtentFilter_raw_nested :
    ((allVersions (uniqueVersions nested)).map timeOf).Nodup ∧
      ∀ v, v ∈ (dedupAndExtentFilter ⟨0, 0, 1, 1⟩ 4 true nested).raw .relation ↔
        ⟨.relation, v⟩ ∈ keptInOrder .oneLevel ⟨0, 0, 1, 1⟩ (uniqueVersions nested) :=
  ⟨nested_distinct, fun v => dedupAndExtentFilter_raw _ _ _ nested nested_distinct .relation v⟩

/-- The contract knows the last of the relations through its member. -/
theorem dedupAndExtentFilter_drops_nested :
    ¬ ∀ (extent : Extent) (baseOrdMax : ℕ) (isOsh : Bool) (rows : ReadRows),
      ((allVersions (uniqueVersions rows)).map timeOf).Nodup → ∀ (t : Typ) (v : Version t),
        (v ∈ (dedupAndExtentFilter extent baseOrdMax isOsh rows).raw t ↔
          ⟨t, v⟩ ∈ keptInOrder .anyDepth extent (uniqueVersions rows)) := by
  intro h
  have inOrder : (⟨.relation, versionAt 3 40 ([⟨.relation, 2, ""⟩] : List Member)⟩ : AnyVersion) ∈
      keptInOrder .anyDepth ⟨0, 0, 1, 1⟩ (uniqueVersions nested) := by
    have hkept : keptInOrder .anyDepth ⟨0, 0, 1, 1⟩ (uniqueVersions nested) =
      (allVersions (uniqueVersions nested)).insertionSort fun a b => timeOf a ≤ timeOf b := by rfl
    rw [hkept, List.mem_insertionSort, mem_allVersions]
    exact List.mem_cons_self
  have hraw := (h ⟨0, 0, 1, 1⟩ 4 true nested nested_distinct .relation _).mpr inOrder
  have hids : ((dedupAndExtentFilter ⟨0, 0, 1, 1⟩ 4 true nested).raw .relation).map Version.id =
      [2, 1] := by
    decide
  have := hids ▸ List.mem_map_of_mem hraw
  contradiction

end OsmParquet.IngestFilter
