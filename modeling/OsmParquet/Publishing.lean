import OsmParquet.Layout

/-!
What is published, and what a stopped command leaves of it.

The tiers of the latest manifest lie under its generation and their versions, in every root that
the commands reach. A run writes under the next versions, so it never writes to a file that the
manifest references, and until `LATEST` is replaced every reader finds what it found before. What
a stopped run has left is not read by the next run, and where that one writes to the same paths it
replaces it.
-/

namespace OsmParquet.Publishing

open OsmParquet.KeyedList OsmParquet.Rows OsmParquet.Tiers OsmParquet.TierSteps
open OsmParquet.Updater OsmParquet.SpatialReads OsmParquet.HistoryTiers OsmParquet.FileStore
open OsmParquet.Layout

variable {β : Type}

/-! ### Where the files of a manifest lie -/

/-- The files of the tiers lie under the generation and their version, and all others under the
generation alone. -/
structure Placed (m : Manifest) : Prop where
  files : ∀ p ∈ m.files, ∃ x, p = .table m.generation x
  areas : ∀ l ∈ m.areas, ∀ p ∈ l, ∃ x, p = .area m.generation x
  deltas : ∀ tier, ∀ doc ∈ m.deltas tier, ∀ x, doc.files x = .delta m.generation tier doc.version x
  generation : ∀ h ∈ m.history, h.generation = m.generation
  historyFiles : ∀ h ∈ m.history, ∀ p ∈ h.files, ∃ x, p = .history h.generation x
  historyTiers : ∀ h ∈ m.history, ∀ tier, ∀ doc ∈ h.tiers tier, ∀ x,
    doc.files x = .historyTier h.generation tier doc.version x.1 x.2

/-- Where a file that such a manifest references can lie. -/
inductive Lies (m : Manifest) : Path → Prop where
  | table (x : TableFile) : Lies m (.table m.generation x)
  | area (x : AreaFile) (h : m.areas.isSome = true) : Lies m (.area m.generation x)
  | delta (tier : Tier) (doc : TierDoc TierFile) (h : doc ∈ m.deltas tier) (x : TierFile) :
      Lies m (.delta m.generation tier doc.version x)
  | history (d : HistoryDoc) (h : d ∈ m.history) (x : HistoryFile)
      (hx : .history m.generation x ∈ d.files) : Lies m (.history m.generation x)
  | historyTier (d : HistoryDoc) (h : d ∈ m.history) (tier : Tier) (doc : TierDoc (Typ × Copy))
      (hd : doc ∈ d.tiers tier) (t : Typ) (c : Copy) :
      Lies m (.historyTier d.generation tier doc.version t c)

lemma mem_tierPaths {φ : Type} {all : List φ} {tiers : Tier → Option (TierDoc φ)} {p : Path} :
    p ∈ tierPaths all tiers ↔ ∃ tier, ∃ doc ∈ tiers tier, ∃ x ∈ all, doc.files x = p := by
  have hall : ∀ tier : Tier, tier ∈ [Tier.hour, .day, .week] := by
    intro tier
    cases tier <;> simp
  simp only [tierPaths, List.mem_flatMap]
  constructor
  · rintro ⟨tier, -, hp⟩
    cases hd : tiers tier with
    | none => simp [hd] at hp
    | some doc =>
      rw [hd, Option.elim_some, List.mem_map] at hp
      exact ⟨tier, doc, hd, hp⟩
  · rintro ⟨tier, doc, hd, hx⟩
    refine ⟨tier, hall tier, ?_⟩
    rw [Option.mem_def.mp hd, Option.elim_some, List.mem_map]
    exact hx

lemma Placed.lies {m : Manifest} (h : Placed m) {p : Path} (hp : p ∈ referencedPaths m) :
    Lies m p := by
  simp only [referencedPaths, List.mem_append] at hp
  rcases hp with ((hp | hp) | hp) | hp
  · obtain ⟨x, rfl⟩ := h.files p hp
    exact .table x
  · cases ha : m.areas with
    | none => simp [ha] at hp
    | some l =>
      rw [ha, Option.getD_some] at hp
      obtain ⟨x, rfl⟩ := h.areas l ha p hp
      exact .area x (by rw [ha]; rfl)
  · obtain ⟨tier, doc, hd, x, -, rfl⟩ := mem_tierPaths.mp hp
    rw [h.deltas tier doc hd x]
    exact .delta tier doc hd x
  · cases hh : m.history with
    | none => simp [hh] at hp
    | some d =>
      rw [hh, Option.elim_some, HistoryDoc.paths, List.mem_append] at hp
      rcases hp with hp | hp
      · obtain ⟨x, rfl⟩ := h.historyFiles d hh p hp
        rw [h.generation d hh] at hp ⊢
        exact .history d hh x hp
      · obtain ⟨tier, doc, hd, x, -, rfl⟩ := mem_tierPaths.mp hp
        rw [h.historyTiers d hh tier doc hd x]
        exact .historyTier d hh tier doc hd x.1 x.2

/-! ### The versions a run writes -/

section Versions

variable {μ : Type} {version : μ → ℕ} {old new : Option μ}

lemma written_eq_some {m : μ} (h : written version old new = some m) :
    new = some m ∧ new.map version ≠ old.map version := by
  unfold written at h
  split at h
  · cases h
  · rename_i hne
    exact ⟨h, hne⟩

/-- A tier is kept, or gets its next version. -/
def Advances (version : μ → ℕ) (old new : Option μ) : Prop :=
  ∃ w : Option μ, new = w.or old ∧ ∀ x ∈ w, version x = old.elim 0 version + 1

lemma advances_self : Advances version old old :=
  ⟨none, rfl, fun _ h => (Option.not_mem_none _ h).elim⟩

lemma Advances.version_of_written (h : Advances version old new) {m : μ}
    (hw : written version old new = some m) : version m = old.elim 0 version + 1 := by
  obtain ⟨hm, hne⟩ := written_eq_some hw
  obtain ⟨w, rfl, hv⟩ := h
  cases w with
  | none =>
    rw [Option.none_or] at hne
    exact (hne rfl).elim
  | some x =>
    rw [← Option.some.inj hm]
    exact hv x rfl

/-- What is not written has not changed. -/
lemma Advances.eq_of_not_written (h : Advances version old new)
    (hw : written version old new = none) : new = old := by
  obtain ⟨w, rfl, hv⟩ := h
  cases w with
  | none => rfl
  | some x =>
    have hx := hv x rfl
    rw [written, Option.some_or] at hw
    split at hw
    · rename_i he
      cases old with
      | none => cases he
      | some o =>
        rw [Option.map_some, Option.map_some, Option.some.injEq] at he
        rw [Option.elim_some] at hx
        omega
    · cases hw

end Versions

lemma advances_writeTierVersion {f : (t : Typ) → TypeFiles t} {a b : ℤ} {ts : Option ℤ}
    {old : Option TierMeta} : Advances TierMeta.version old
      ((Tiers.writeTierVersion f a b ts (old.elim 0 TierMeta.version + 1)).or old) := by
  refine ⟨_, rfl, fun x hx => ?_⟩
  rw [writeTierVersion_eq] at hx
  split at hx
  · cases hx
  · cases hx
    rfl

lemma advances_writeHistoryTierVersion {f : (t : Typ) → HistoryFiles t} {a b : ℤ} {ts : Option ℤ}
    {old : Option HistoryMeta} : Advances HistoryMeta.version old
      ((HistoryTiers.writeHistoryTierVersion f a b ts
        (old.elim 0 HistoryMeta.version + 1)).or old) := by
  refine ⟨_, rfl, fun x hx => ?_⟩
  rw [HistoryTiers.writeHistoryTierVersion] at hx
  split at hx
  · cases hx
  · cases hx
    rfl

/-- **A run writes the next version of a tier, or leaves the tier.** -/
lemma advances_runTiers (d : Deltas) (r : TierRun) (tier : Tier) :
    Advances TierMeta.version (deltaTier d tier) (deltaTier (runTiers d r) tier) := by
  unfold runTiers writeTiers
  split
  · rename_i hour dc hh hc
    have hhour : hour.version + 1 = d.hour.elim 0 TierMeta.version + 1 := by rw [hh]; rfl
    unfold writeFold
    rw [hhour]
    cases dc <;> cases tier
    · exact advances_writeTierVersion
    · exact advances_writeTierVersion
    · exact advances_self
    · exact advances_writeTierVersion
    · exact advances_writeTierVersion
    · exact advances_writeTierVersion
  · unfold writeHour
    cases tier
    · exact advances_writeTierVersion
    · exact advances_self
    · exact advances_self

lemma advances_writeHistoryTiers {h h' : History} {batch : (t : Typ) → HistoryFiles t} {a b : ℤ}
    {ts : Option ℤ} {hc dc : Bool} (hw : writeHistoryTiers h batch a b ts hc dc = some h')
    (tier : Tier) : Advances HistoryMeta.version (historyTier h tier) (historyTier h' tier) := by
  cases hc with
  | false =>
    simp only [writeHistoryTiers, Bool.not_false, if_true, Option.some.injEq] at hw
    subst hw
    cases tier
    · exact advances_writeHistoryTierVersion
    · exact advances_self
    · exact advances_self
  | true =>
    simp only [writeHistoryTiers, Bool.not_true, Bool.false_eq_true, if_false] at hw
    obtain ⟨hour, hh, rfl⟩ := Option.map_eq_some_iff.mp hw
    have hhour : hour.version + 1 = h.hour.elim 0 HistoryMeta.version + 1 := by rw [hh]; rfl
    rw [hhour]
    cases dc <;> cases tier
    · exact advances_writeHistoryTierVersion
    · exact advances_writeHistoryTierVersion
    · exact advances_self
    · exact advances_writeHistoryTierVersion
    · exact advances_writeHistoryTierVersion
    · exact advances_writeHistoryTierVersion

section Load

variable {seen : Path → Option (File β)}

lemma version_loadTier {doc : TierDoc TierFile} {m : TierMeta} (h : loadTier seen doc = some m) :
    m.version = doc.version := by
  unfold loadTier at h
  obtain ⟨n, -, h⟩ := Option.bind_eq_some_iff.mp h
  obtain ⟨w, -, h⟩ := Option.bind_eq_some_iff.mp h
  obtain ⟨r, -, rfl⟩ := Option.map_eq_some_iff.mp h
  rfl

lemma version_loadHistoryTier {doc : TierDoc (Typ × Copy)} {m : HistoryMeta}
    (h : loadHistoryTier seen doc = some m) : m.version = doc.version := by
  unfold loadHistoryTier at h
  obtain ⟨n, -, h⟩ := Option.bind_eq_some_iff.mp h
  obtain ⟨w, -, h⟩ := Option.bind_eq_some_iff.mp h
  obtain ⟨r, -, rfl⟩ := Option.map_eq_some_iff.mp h
  rfl

lemma elim_load {δ μ : Type} {read : δ → Option μ} {docVersion : δ → ℕ} {version : μ → ℕ}
    (hr : ∀ doc m, read doc = some m → version m = docVersion doc) {doc : Option δ} {m : Option μ}
    (h : load read doc = some m) : m.elim 0 version = doc.elim 0 docVersion := by
  cases doc with
  | none =>
    cases h
    rfl
  | some doc =>
    obtain ⟨x, hx, rfl⟩ := Option.map_eq_some_iff.mp h
    exact hr doc x hx

lemma version_loadDeltas {v : View β} {d : Deltas} (h : loadDeltas v = some d) (tier : Tier) :
    (deltaTier d tier).elim 0 TierMeta.version =
    (v.manifest.deltas tier).elim 0 TierDoc.version := by
  unfold loadDeltas at h
  obtain ⟨hour, hh, h⟩ := Option.bind_eq_some_iff.mp h
  obtain ⟨day, hd, h⟩ := Option.bind_eq_some_iff.mp h
  obtain ⟨week, hw, rfl⟩ := Option.map_eq_some_iff.mp h
  cases tier
  · exact elim_load (fun _ _ => version_loadTier) hh
  · exact elim_load (fun _ _ => version_loadTier) hd
  · exact elim_load (fun _ _ => version_loadTier) hw

lemma version_loadHistory {v : View β} {x : HistoryDoc} {h : History}
    (hl : loadHistory v x = some h) (tier : Tier) :
    (historyTier h tier).elim 0 HistoryMeta.version = (x.tiers tier).elim 0 TierDoc.version := by
  unfold loadHistory at hl
  obtain ⟨hour, hh, hl⟩ := Option.bind_eq_some_iff.mp hl
  obtain ⟨day, hd, hl⟩ := Option.bind_eq_some_iff.mp hl
  obtain ⟨week, hw, rfl⟩ := Option.map_eq_some_iff.mp hl
  cases tier
  · exact elim_load (fun _ _ => version_loadHistoryTier) hh
  · exact elim_load (fun _ _ => version_loadHistoryTier) hd
  · exact elim_load (fun _ _ => version_loadHistoryTier) hw

end Load

/-! ### The plan of a run -/

/-- A path under the next version of a tier of the manifest. -/
def NextVersion (m : Manifest) (p : Path) : Prop :=
  (∃ tier x, p = .delta m.generation tier ((m.deltas tier).elim 0 TierDoc.version + 1) x) ∨
    ∃ h ∈ m.history, ∃ tier t c,
      p = .historyTier h.generation tier ((h.tiers tier).elim 0 TierDoc.version + 1) t c

/-- **The next version of a tier is not referenced.** -/
lemma not_referenced_of_nextVersion {m : Manifest} (hm : Placed m) {p : Path}
    (hp : NextVersion m p) : p ∉ referencedPaths m := by
  intro hr
  have hlies := hm.lies hr
  rcases hp with ⟨tier, x, rfl⟩ | ⟨h, hh, tier, t, c, rfl⟩
  · generalize hv : (m.deltas tier).elim 0 TierDoc.version + 1 = version at hlies
    cases hlies with
    | delta _ doc hd _ =>
      rw [Option.mem_def.mp hd, Option.elim_some] at hv
      omega
  · generalize hv : (h.tiers tier).elim 0 TierDoc.version + 1 = version at hlies
    generalize hg : h.generation = g at hlies
    cases hlies with
    | historyTier d hd _ doc hdoc _ _ =>
      rw [Option.some.inj (hh.symm.trans hd), Option.mem_def.mp hdoc, Option.elim_some] at hv
      omega

lemma mem_writeOrder (tier : Tier) : tier ∈ writeOrder := by cases tier <;> simp [writeOrder]

/-- What is written tier by tier. -/
lemma mem_overTiers {μ α : Type} {w : Tier → Option μ} {f : Tier → μ → List α} {a : α} :
    a ∈ writeOrder.flatMap (fun tier => (w tier).elim [] (f tier)) ↔
      ∃ tier m, w tier = some m ∧ a ∈ f tier m := by
  rw [List.mem_flatMap]
  constructor
  · rintro ⟨tier, -, ha⟩
    cases hw : w tier with
    | none => simp [hw] at ha
    | some m =>
      rw [hw, Option.elim_some] at ha
      exact ⟨tier, m, hw, ha⟩
  · rintro ⟨tier, m, hw, ha⟩
    refine ⟨tier, mem_writeOrder tier, ?_⟩
    rw [hw, Option.elim_some]
    exact ha

lemma mem_writeDeltas {g : String} {old new : Deltas} {op : Op Path (File β)} :
    op ∈ writeDeltas g old new ↔ ∃ tier m,
      written TierMeta.version (deltaTier old tier) (deltaTier new tier) = some m ∧
        ∃ x ∈ TierFile.all, .write (.delta g tier m.version x) (deltaFile m x) = op := by
  rw [writeDeltas, mem_overTiers]
  simp only [Layout.writeTierVersion, List.mem_map]

lemma mem_writeHistory {g : String} {old new : History} {op : Op Path (File β)} :
    op ∈ writeHistory g old new ↔ ∃ tier m,
      written HistoryMeta.version (historyTier old tier) (historyTier new tier) = some m ∧
        ∃ x ∈ historyTierFiles,
          .write (.historyTier g tier m.version x.1 x.2) (historyFile m x) = op := by
  rw [writeHistory, mem_overTiers]
  simp only [Layout.writeHistoryTierVersion, List.mem_map]

/-- What a plan over a manifest is like when it only adds to what is published. -/
structure Adds (m : Manifest) (plan : Plan β) : Prop where
  data : ∀ op ∈ plan.data, op.IsWrite ∧ NextVersion m op.target
  placed : ∀ m' ∈ plan.next, Placed m → Placed m'
  referenced : ∀ m' ∈ plan.next, ∀ p ∈ referencedPaths m',
    p ∈ referencedPaths m ∨ ∃ op ∈ plan.data, op.target = p

section Run

variable {v : View β} {d : Deltas} {r : HistoryRun}

lemma nextVersion_writeDeltas (hl : loadDeltas v = some d) {op : Op Path (File β)}
    (hop : op ∈ writeDeltas v.manifest.generation d (runTiers d r.tiers)) :
    op.IsWrite ∧ NextVersion v.manifest op.target := by
  obtain ⟨tier, m, hw, x, -, rfl⟩ := mem_writeDeltas.mp hop
  refine ⟨trivial, .inl ⟨tier, x, ?_⟩⟩
  rw [← version_loadDeltas hl, ← (advances_runTiers d r.tiers tier).version_of_written hw]
  rfl

/-- The entries of the delta tiers after a run. -/
lemma deltaDocs_spec (hm : Placed v.manifest) {tier : Tier} {doc : TierDoc TierFile} {new : Deltas}
    (hd : doc ∈ deltaDocs v.manifest d new tier) (x : TierFile) :
    doc.files x = .delta v.manifest.generation tier doc.version x := by
  unfold deltaDocs at hd
  cases hw : written TierMeta.version (deltaTier d tier) (deltaTier new tier) with
  | none =>
    rw [hw, Option.map_none, Option.none_or] at hd
    exact hm.deltas tier doc hd x
  | some m =>
    rw [hw, Option.map_some, Option.some_or] at hd
    cases hd
    rfl

lemma referenced_deltaDocs {new : Deltas} {p : Path}
    (hp : p ∈ tierPaths TierFile.all (deltaDocs v.manifest d new)) :
    p ∈ referencedPaths v.manifest ∨
      ∃ op ∈ (writeDeltas v.manifest.generation d new : Ops β), op.target = p := by
  obtain ⟨tier, doc, hd, x, hx, rfl⟩ := mem_tierPaths.mp hp
  unfold deltaDocs at hd
  cases hw : written TierMeta.version (deltaTier d tier) (deltaTier new tier) with
  | none =>
    rw [hw, Option.map_none, Option.none_or] at hd
    left
    simp only [referencedPaths, List.mem_append]
    exact .inl (.inr (mem_tierPaths.mpr ⟨tier, doc, hd, x, hx, rfl⟩))
  | some m =>
    rw [hw, Option.map_some, Option.some_or] at hd
    cases hd
    exact .inr ⟨_, mem_writeDeltas.mpr ⟨tier, m, hw, x, hx, rfl⟩, rfl⟩

/-- The manifest a run publishes when it has no history rows. -/
lemma adds_deltas (hl : loadDeltas v = some d) (ts seq : Option ℤ) :
    Adds v.manifest (⟨writeDeltas v.manifest.generation d (runTiers d r.tiers),
      some { v.manifest with
        timestampOsmBase := ts
        replicationSequence := seq
        deltas := deltaDocs v.manifest d (runTiers d r.tiers) }⟩ : Plan β) := by
  refine ⟨fun op hop => nextVersion_writeDeltas hl hop, ?_, ?_⟩
  · rintro m' ⟨⟩ hm
    exact ⟨hm.files, hm.areas, fun tier doc hd x => deltaDocs_spec hm hd x, hm.generation,
      hm.historyFiles, hm.historyTiers⟩
  · rintro m' ⟨⟩ p hp
    simp only [referencedPaths, List.mem_append] at hp ⊢
    rcases hp with (hp | hp) | hp
    · exact .inl (.inl (.inl hp))
    · exact (referenced_deltaDocs hp).imp_left fun h => by
        simpa only [referencedPaths, List.mem_append] using h
    · exact .inl (.inr hp)

/-- The entries of the history tiers after a run. -/
lemma historyDocs_spec {h : HistoryDoc} (hm : Placed v.manifest) (hh : h ∈ v.manifest.history)
    {old new : History} {tier : Tier} {doc : TierDoc (Typ × Copy)}
    (hd : doc ∈ historyDocs h old new tier) (x : Typ × Copy) :
    doc.files x = .historyTier h.generation tier doc.version x.1 x.2 := by
  unfold historyDocs at hd
  cases hw : written HistoryMeta.version (historyTier old tier) (historyTier new tier) with
  | none =>
    rw [hw, Option.map_none, Option.none_or] at hd
    exact hm.historyTiers h hh tier doc hd x
  | some m =>
    rw [hw, Option.map_some, Option.some_or] at hd
    cases hd
    rfl

lemma referenced_historyDocs {h : HistoryDoc} (hh : h ∈ v.manifest.history) {old new : History}
    {p : Path} (hp : p ∈ tierPaths historyTierFiles (historyDocs h old new)) :
    p ∈ referencedPaths v.manifest ∨
      ∃ op ∈ (writeHistory h.generation old new : Ops β), op.target = p := by
  obtain ⟨tier, doc, hd, x, hx, rfl⟩ := mem_tierPaths.mp hp
  unfold historyDocs at hd
  cases hw : written HistoryMeta.version (historyTier old tier) (historyTier new tier) with
  | none =>
    rw [hw, Option.map_none, Option.none_or] at hd
    left
    simp only [referencedPaths, List.mem_append, Option.mem_def.mp hh, Option.elim_some,
      HistoryDoc.paths]
    exact .inr (.inr (mem_tierPaths.mpr ⟨tier, doc, hd, x, hx, rfl⟩))
  | some m =>
    rw [hw, Option.map_some, Option.some_or] at hd
    cases hd
    exact .inr ⟨_, mem_writeHistory.mpr ⟨tier, m, hw, x, hx, rfl⟩, rfl⟩

/-- The manifest a run publishes with history rows. -/
lemma adds_history {h : HistoryDoc} (hh : h ∈ v.manifest.history) {old new : History}
    (hold : loadHistory v h = some old) {batch : (t : Typ) → HistoryFiles t} {a b : ℤ}
    {ts : Option ℤ} {hc dc : Bool} (hroll : writeHistoryTiers old batch a b ts hc dc =
      some new) {ops : Ops β}
    {m : Manifest} (hadds : Adds v.manifest (⟨ops, some m⟩ : Plan β))
    (hgen : m.generation = v.manifest.generation) :
    Adds v.manifest (⟨ops ++ writeHistory h.generation old new,
      some { m with history := some { h with tiers := historyDocs h old new } }⟩ : Plan β) := by
  refine ⟨fun op hop => ?_, ?_, ?_⟩
  · rcases List.mem_append.mp hop with hop | hop
    · exact hadds.data op hop
    · obtain ⟨tier, x, hw, y, -, rfl⟩ := mem_writeHistory.mp hop
      refine ⟨trivial, .inr ⟨h, hh, tier, y.1, y.2, ?_⟩⟩
      rw [← version_loadHistory hold, ← (advances_writeHistoryTiers
        hroll tier).version_of_written hw]
      rfl
  · rintro m' ⟨⟩ hpl
    obtain ⟨h1, h2, h3, -, -, -⟩ := hadds.placed m rfl hpl
    refine ⟨h1, h2, h3, ?_, ?_, ?_⟩
    · rintro x ⟨⟩
      exact (hpl.generation h hh).trans hgen.symm
    · rintro x ⟨⟩ p hp
      exact hpl.historyFiles h hh p hp
    · rintro x ⟨⟩ tier doc hd y
      exact historyDocs_spec hpl hh hd y
  · rintro m' ⟨⟩ p hp
    simp only [referencedPaths, List.mem_append, Option.elim_some, HistoryDoc.paths] at hp
    have hin : ∀ {op : Op Path (File β)}, op ∈ ops ∨ op ∈ writeHistory h.generation old new →
        op ∈ ops ++ writeHistory h.generation old new := fun h => List.mem_append.mpr h
    rcases hp with hp | hp | hp
    · have hp' : p ∈ referencedPaths m := by
        simp only [referencedPaths, List.mem_append]
        exact .inl hp
      rcases hadds.referenced m rfl p hp' with hold | ⟨op, hop, ht⟩
      · exact .inl hold
      · exact .inr ⟨op, hin (.inl hop), ht⟩
    · left
      simp only [referencedPaths, List.mem_append, Option.mem_def.mp hh, Option.elim_some,
        HistoryDoc.paths]
      exact .inr (.inl hp)
    · rcases referenced_historyDocs (β := β) hh hp with hold | ⟨op, hop, ht⟩
      · exact .inl hold
      · exact .inr ⟨op, hin (.inr hop), ht⟩

/-- **What a run adds.** -/
theorem adds_runPlan (hl : loadDeltas v = some d) : Adds v.manifest (runPlan v d r) := by
  have hd := adds_deltas (r := r) hl (r.tiers.timestamp.or v.manifest.timestampOsmBase)
    (some r.tiers.lastSeq)
  unfold runPlan
  simp only
  split
  · exact hd
  · rename_i h hh
    split
    · split
      · exact ⟨hd.data, nofun, nofun⟩
      · rename_i old new hrolled
        obtain ⟨old', hold, hnew⟩ := Option.bind_eq_some_iff.mp hrolled
        obtain ⟨new', hroll, he⟩ := Option.map_eq_some_iff.mp hnew
        cases he
        have hadds := adds_history hh hold hroll hd rfl
        exact hadds
    · exact hd

end Run

/-! ### The plans of all commands -/

/-- A path of the data, beside the manifests. -/
def IsData : Path → Prop
  | .latest | .manifest _ => False
  | _ => True

lemma IsData.ne_latest {p : Path} (h : IsData p) : p ≠ .latest := by
  rintro rfl
  exact h

lemma IsData.ne_manifest {p : Path} (h : IsData p) (n : ℕ) : p ≠ .manifest n := by
  rintro rfl
  exact h

lemma Lies.isData {m : Manifest} {p : Path} (h : Lies m p) : IsData p := by cases h <;> trivial

lemma isData_of_nextVersion {m : Manifest} {p : Path} (h : NextVersion m p) : IsData p := by
  rcases h with ⟨tier, x, rfl⟩ | ⟨h, -, tier, t, c, rfl⟩ <;> trivial

/-- A plan that leaves the manifests to `publish`, and publishes files that lie where they
belong. -/
structure Orderly (plan : Plan β) : Prop where
  data : ∀ op ∈ plan.data, IsData op.target
  placed : ∀ m ∈ plan.next, Placed m

lemma orderly_nothing : Orderly (⟨[], none⟩ : Plan β) where
  data _ h := (List.not_mem_nil h).elim
  placed _ h := (Option.not_mem_none _ h).elim

section Targets

variable {φ : Type} {place : φ → Path} {p : Path} {op : Op Path (File β)}

lemma target_of_writeFiles {xs : List (φ × β)} (hop : op ∈ writeFiles place xs) :
    ∃ x ∈ xs, op.target = place x.1 := by
  obtain ⟨x, hx, rfl⟩ := List.mem_map.mp hop
  exact ⟨x, hx, rfl⟩

lemma place_of_pathsOf {xs : List (φ × β)} (hp : p ∈ pathsOf place xs) : ∃ x, p = place x := by
  obtain ⟨x, -, rfl⟩ := List.mem_map.mp hp
  exact ⟨x.1, rfl⟩

lemma target_of_stepOps {xs : List (φ × Step β)} (hop : op ∈ stepOps place xs) :
    ∃ x ∈ xs, op.target = place x.1 := by
  obtain ⟨x, hx, hop⟩ := List.mem_flatMap.mp hop
  refine ⟨x, hx, ?_⟩
  cases hs : x.2 <;> simp only [hs, Step.ops, List.mem_cons, List.not_mem_nil, or_false] at hop
  · rcases hop with rfl | rfl <;> rfl
  · rw [hop]
    rfl
  · rcases hop with rfl | rfl <;> rfl

/-- What is done only if there is something to do it for. -/
lemma target_of_elim {α : Type} {o : Option α} {xs : List (φ × Step β)}
    (hop : op ∈ o.elim [] fun _ => stepOps place xs) : ∃ x, op.target = place x := by
  cases o with
  | none => cases hop
  | some a =>
    obtain ⟨x, -, ht⟩ := target_of_stepOps hop
    exact ⟨x.1, ht⟩

lemma place_of_stepPaths {xs : List (φ × Step β)} (hp : p ∈ stepPaths place xs) :
    ∃ x, p = place x := by
  obtain ⟨x, -, rfl⟩ := List.mem_map.mp hp
  exact ⟨x.1, rfl⟩

end Targets

lemma isData_table (g : String) (x : TableFile) : IsData (.table g x) := trivial
lemma isData_area (g : String) (x : AreaFile) : IsData (.area g x) := trivial
lemma isData_history (g : String) (x : HistoryFile) : IsData (.history g x) := trivial

lemma orderly_historyPlan {m : Manifest} (hm : Placed m) (name : ℕ → String) (x : HistoryLayout β) :
    Orderly (historyPlan m name x) := by
  refine ⟨fun op hop => ?_, ?_⟩
  · obtain ⟨y, -, ht⟩ := target_of_writeFiles hop
    rw [ht]
    exact isData_history _ _
  · rintro m' ⟨⟩
    refine ⟨hm.files, hm.areas, hm.deltas, ?_, ?_, ?_⟩
    · rintro h ⟨⟩
      rfl
    · rintro h ⟨⟩ p hp
      exact place_of_pathsOf hp
    · rintro h ⟨⟩ tier doc ⟨⟩

/-- The targets of compaction lie in the generation it writes. -/
lemma target_of_compactPlan {m : Manifest} {g : String} {x : Compacted β} {op : Op Path (File β)}
    (hop : op ∈ (compactPlan m g x).data) :
    (∃ y, op.target = .table g y) ∨ (∃ y, op.target = .area g y) ∨
      ∃ y, op.target = .history g y := by
  simp only [compactPlan, List.mem_append] at hop
  rcases hop with ((hop | hop) | hop) | hop
  · obtain ⟨y, -, ht⟩ := target_of_stepOps hop
    exact .inl ⟨_, ht⟩
  · obtain ⟨y, -, ht⟩ := target_of_writeFiles hop
    exact .inl ⟨_, ht⟩
  · exact .inr (.inl (target_of_elim hop))
  · exact .inr (.inr (target_of_elim hop))

lemma orderly_compactPlan (m : Manifest) (g : String) (x : Compacted β) :
    Orderly (compactPlan m g x) := by
  refine ⟨fun op hop => ?_, ?_⟩
  · rcases target_of_compactPlan hop with ⟨y, ht⟩ | ⟨y, ht⟩ | ⟨y, ht⟩ <;> rw [ht]
    · exact isData_table _ _
    · exact isData_area _ _
    · exact isData_history _ _
  · rintro m' ⟨⟩
    refine ⟨fun p hp => ?_, fun l hl p hp => ?_, fun tier doc hd => ?_, fun h hh => ?_,
      fun h hh p hp => ?_, fun h hh => ?_⟩
    · rcases List.mem_append.mp hp with hp | hp
      · exact place_of_stepPaths hp
      · exact place_of_pathsOf hp
    · obtain ⟨l', -, rfl⟩ := Option.map_eq_some_iff.mp hl
      exact place_of_stepPaths hp
    · cases hd
    · obtain ⟨h', -, rfl⟩ := Option.map_eq_some_iff.mp hh
      rfl
    · obtain ⟨h', -, rfl⟩ := Option.map_eq_some_iff.mp hh
      exact place_of_stepPaths hp
    · obtain ⟨h', -, rfl⟩ := Option.map_eq_some_iff.mp hh
      rintro tier doc ⟨⟩

section Commands

variable (resolve : View β → Fetched → HistoryRun)

/-- **All commands are orderly.** -/
theorem orderly_planOf {v : Option (View β)} (hv : ∀ x ∈ v, Placed x.manifest) (c : Command β) :
    Orderly (planOf resolve v c) := by
  cases c with
  | build generation timestamp sequence files =>
    refine ⟨fun op hop => ?_, ?_⟩
    · obtain ⟨y, -, ht⟩ := target_of_writeFiles hop
      rw [ht]
      exact isData_table _ _
    · rintro m ⟨⟩
      exact ⟨fun p hp => place_of_pathsOf hp, nofun, nofun, nofun, nofun, nofun⟩
  | update f =>
    simp only [planOf]
    split
    · exact orderly_nothing
    · cases hr : v.bind fun v => (loadDeltas v).map fun d => runPlan v d (resolve v f) with
      | none => exact orderly_nothing
      | some plan =>
        obtain ⟨x, hx, hplan⟩ := Option.bind_eq_some_iff.mp hr
        obtain ⟨d, hd, rfl⟩ := Option.map_eq_some_iff.mp hplan
        have hadds : Adds x.manifest (runPlan x d (resolve x f)) := adds_runPlan hd
        exact ⟨fun op hop => isData_of_nextVersion (hadds.data op hop).2,
          fun m hm => hadds.placed m hm (hv x hx)⟩
  | areas cells index wayIndex =>
    cases v with
    | none => exact orderly_nothing
    | some x =>
      have hx := hv x rfl
      refine ⟨fun op hop => ?_, ?_⟩
      · obtain ⟨y, -, ht⟩ := target_of_writeFiles hop
        rw [ht]
        exact isData_area _ _
      · rintro m ⟨⟩
        refine ⟨hx.files, ?_, hx.deltas, hx.generation, hx.historyFiles, hx.historyTiers⟩
        rintro l ⟨⟩ p hp
        exact place_of_pathsOf hp
  | historyInit x =>
    cases v with
    | none => exact orderly_nothing
    | some y =>
      simp only [planOf, Option.elim_some]
      split
      · exact orderly_nothing
      · exact orderly_historyPlan (hv y rfl) _ x
  | historyBuild x =>
    cases v with
    | none => exact orderly_nothing
    | some y => exact orderly_historyPlan (hv y rfl) _ x
  | compact generation x =>
    cases v with
    | none => exact orderly_nothing
    | some y => exact orderly_compactPlan _ _ _

end Commands

/-! ### Stopped commands -/

section Stopped

variable {s s' : Root β} {ops : Ops β} {plan : Plan β} {n : ℕ}

lemma latestNumber_congr (h : s .latest = s' .latest) : latestNumber s = latestNumber s' := by
  simp only [latestNumber, h]

lemma manifestAt_congr (h : s (.manifest n) = s' (.manifest n)) :
    manifestAt s n = manifestAt s' n := by
  simp only [manifestAt, h]

lemma view_eq_some {v : View β} : view s = some v ↔ latestNumber s = some v.number ∧
    manifestAt s v.number = some v.manifest ∧
    v.seen = fun p => if p ∈ referencedPaths v.manifest then s p else none := by
  simp only [view, Option.bind_eq_some_iff, Option.map_eq_some_iff]
  constructor
  · rintro ⟨k, hk, m, hm, rfl⟩
    exact ⟨hk, hm, rfl⟩
  · rintro ⟨hk, hm, hseen⟩
    refine ⟨v.number, hk, v.manifest, hm, ?_⟩
    rw [← hseen]

/-- Roots with the same latest manifest and the same files of it look the same. -/
lemma view_congr (hl : s .latest = s' .latest)
    (hm : ∀ k, latestNumber s = some k → s (.manifest k) = s' (.manifest k))
    (hf : ∀ k m, latestNumber s = some k → manifestAt s k = some m →
      ∀ p ∈ referencedPaths m, s p = s' p) :
    view s = view s' := by
  rw [view, view, ← latestNumber_congr hl]
  cases hk : latestNumber s with
  | none => rfl
  | some k =>
    rw [Option.bind_some, Option.bind_some, ← manifestAt_congr (hm k hk)]
    cases hman : manifestAt s k with
    | none => rfl
    | some m =>
      rw [Option.map_some, Option.map_some, Option.some.injEq, View.mk.injEq]
      refine ⟨rfl, rfl, funext fun p => ?_⟩
      split
      · rename_i hp
        exact hf k m hk hman p hp
      · rfl

/-- What a command to its end has published. -/
lemma published_ops {m : Manifest} (hn : plan.next = some m) :
    latestNumber (actAll s (plan.ops n)) = some (n + 1) ∧
      manifestAt (actAll s (plan.ops n)) (n + 1) = some m := by
  simp [Plan.ops, hn, publish, actAll_append, act, latestNumber, manifestAt]

/-- **What a stopped command has published**: nothing, or the manifest that it was to publish. -/
lemma published_take (hp : Orderly plan) (k : ℕ) :
    (latestNumber (actAll s ((plan.ops n).take k)) = latestNumber s ∧ ∀ j, j ≠ n + 1 →
        manifestAt (actAll s ((plan.ops n).take k)) j = manifestAt s j) ∨
      ∃ m ∈ plan.next, latestNumber (actAll s ((plan.ops n).take k)) = some (n + 1) ∧
        manifestAt (actAll s ((plan.ops n).take k)) (n + 1) = some m := by
  have hframe : ∀ {l : Ops β}, (∀ op ∈ l, IsData op.target ∨ op.target = .manifest (n + 1)) →
      latestNumber (actAll s l) = latestNumber s ∧
        ∀ j, j ≠ n + 1 → manifestAt (actAll s l) j = manifestAt s j := by
    intro l h
    refine ⟨latestNumber_congr (actAll_of_ne fun op hop => ?_), fun j hj =>
      manifestAt_congr (actAll_of_ne fun op hop => ?_)⟩
    · rcases h op hop with hd | he
      · exact hd.ne_latest
      · rw [he]
        exact Layout.Path.noConfusion
    · rcases h op hop with hd | he
      · exact hd.ne_manifest j
      · rw [he]
        intro heq
        injection heq with heq
        exact hj heq.symm
  cases hn : plan.next with
  | none =>
    left
    rw [Plan.ops, hn, Option.elim_none, List.append_nil]
    exact hframe fun op hop => .inl (hp.data op (List.mem_of_mem_take hop))
  | some m =>
    have hops : plan.ops n = (plan.data ++ [.write (.manifest (n + 1)) (.manifest m)]) ++
        [.write .latest (.number (n + 1))] := by
      simp [Plan.ops, hn, publish]
    rw [hops]
    by_cases hk : k ≤ (plan.data ++ [Op.write (Path.manifest (n + 1)) (File.manifest m)]).length
    · left
      rw [List.take_append_of_le_length hk]
      refine hframe fun op hop => ?_
      rcases List.mem_append.mp (List.mem_of_mem_take hop) with hop | hop
      · exact .inl (hp.data op hop)
      · right
        rw [List.mem_singleton.mp hop]
        rfl
    · right
      rw [List.take_of_length_le
        (by simp only [List.length_append, List.length_singleton] at hk ⊢; omega), ← hops]
      exact ⟨m, rfl, published_ops hn⟩

variable {resolve : View β → Fetched → HistoryRun}

/-- **In every root the commands reach the latest manifest has its files where they belong.** -/
theorem placed_of_reachable (h : Reachable resolve s) : ∀ v ∈ view s, Placed v.manifest := by
  induction h with
  | empty => rintro v ⟨⟩
  | step s c k _ ih =>
    intro v hv
    obtain ⟨hl, hm, -⟩ := view_eq_some.mp hv
    have hord := orderly_planOf resolve ih c
    rcases published_take (s := s) (n := (latestNumber s).getD 0) hord k with ⟨hl', hm'⟩ | ⟨m,
      hnext, hl', hm'⟩
    · -- nothing is published, and what was is as it was
      have hsame : latestNumber s = some v.number := hl'.symm.trans hl
      have hman : manifestAt s v.number = some v.manifest := by
        rw [← hm' v.number (by rw [hsame, Option.getD_some]; omega)]
        exact hm
      obtain ⟨w, hw⟩ : ∃ w, view s = some w := by simp [view, hsame, hman]
      obtain ⟨h1, h2, -⟩ := view_eq_some.mp hw
      rw [hsame] at h1
      rw [← Option.some.inj h1, hman] at h2
      rw [Option.some.inj h2]
      exact ih w hw
    · have hnum : v.number = (latestNumber s).getD 0 + 1 := Option.some.inj (hl.symm.trans hl')
      rw [hnum] at hm
      rw [Option.some.inj (hm.symm.trans hm')]
      exact hord.placed m hnext

end Stopped

/-! ### Stopped runs -/

section Runs

variable {resolve : View β → Fetched → HistoryRun} {s s' : Root β} {v : View β}

/-- What a reader of the latest manifest reads. -/
def Published (v : View β) (p : Path) : Prop :=
  p = .latest ∨ p = .manifest v.number ∨ p ∈ referencedPaths v.manifest

/-- The plan of a run on a root that can be read. -/
lemma adds_planOf (resolve : View β → Fetched → HistoryRun) (v : View β) (f : Fetched) :
    Adds v.manifest (planOf resolve (some v) (.update f)) := by
  have hnothing : Adds v.manifest (⟨[], none⟩ : Plan β) := by
    refine ⟨fun _ h => (List.not_mem_nil h).elim, ?_, ?_⟩ <;> rintro m ⟨⟩
  simp only [planOf, Option.bind_some]
  split
  · exact hnothing
  · cases hd : loadDeltas v with
    | none => exact hnothing
    | some d => exact adds_runPlan hd

/-- The next number and `LATEST` are written when there is something to publish. -/
lemma mem_ops {plan : Plan β} {n : ℕ} {op : Op Path (File β)} (hop : op ∈ plan.ops n) :
    op ∈ plan.data ∨ ∃ m ∈ plan.next, op = .write (.manifest (n + 1)) (.manifest m) ∨
      op = .write .latest (.number (n + 1)) := by
  rcases List.mem_append.mp hop with hop | hop
  · exact .inl hop
  · cases hn : plan.next with
    | none => simp [hn] at hop
    | some m =>
      rw [hn, Option.elim_some, publish, List.mem_cons, List.mem_singleton] at hop
      exact .inr ⟨m, rfl, hop⟩

/-- **Before `LATEST` is replaced nothing that is published changes.** -/
lemma published_frame (hv : view s = some v) (hm : Placed v.manifest) {f : Fetched} {pre : Ops β}
    (hpre : pre <+: opsOf resolve s (.update f)) (hl : ∀ op ∈ pre, op.target ≠ .latest) {p : Path}
    (hp : Published v p) : actAll s pre p = s p := by
  have hnum := (view_eq_some.mp hv).1
  refine actAll_of_ne fun op hop ht => ?_
  have hin := hpre.subset hop
  rw [opsOf, hv, hnum, Option.getD_some] at hin
  rcases mem_ops hin with hdata | ⟨m, -, rfl | rfl⟩
  · have hnext := ((adds_planOf resolve v f).data op hdata).2
    rcases hp with rfl | rfl | hr
    · exact (isData_of_nextVersion hnext).ne_latest ht
    · exact (isData_of_nextVersion hnext).ne_manifest _ ht
    · exact not_referenced_of_nextVersion hm hnext (ht ▸ hr)
  · rcases hp with rfl | rfl | hr
    · cases ht
    · injection ht with ht
      omega
    · exact (hm.lies hr).isData.ne_manifest _ ht.symm
  · exact hl _ hop rfl

/-- Roots in which the same is published look the same. -/
lemma view_of_published (hv : view s = some v) (h : ∀ p, Published v p → s' p = s p) :
    view s' = some v := by
  obtain ⟨hl, hm, -⟩ := view_eq_some.mp hv
  rw [← hv]
  refine (view_congr (h _ (.inl rfl)).symm (fun k hk => ?_) fun k m hk hman p hp => ?_).symm
  · rw [Option.some.inj (hk.symm.trans hl)]
    exact (h _ (.inr (.inl rfl))).symm
  · rw [Option.some.inj (hk.symm.trans hl)] at hman
    rw [Option.some.inj (hman.symm.trans hm)] at hp
    exact (h p (.inr (.inr hp))).symm

/-- A run to its end. -/
def update (resolve : View β → Fetched → HistoryRun) (s : Root β) (f : Fetched) : Root β :=
  actAll s (opsOf resolve s (.update f))

/-- A run publishes the same in two roots in which the same is published. -/
lemma view_update_congr (hv : view s = some v) (h : ∀ p, Published v p → s' p = s p) (f : Fetched) :
    view (update resolve s' f) = view (update resolve s f) := by
  have hv' := view_of_published hv h
  have hnum := (view_eq_some.mp hv).1
  have hnum' := (view_eq_some.mp hv').1
  obtain ⟨hdata, -, href⟩ := adds_planOf resolve v f
  rw [update, update, opsOf, opsOf, hv, hv', hnum, hnum', Option.getD_some]
  generalize planOf resolve (some v) (.update f) = plan at hdata href
  have hw : ∀ op ∈ plan.ops v.number, op.IsWrite := by
    intro op hop
    rcases mem_ops hop with hop | ⟨m, -, rfl | rfl⟩
    · exact (hdata op hop).1
    · trivial
    · trivial
  have hsame : ∀ p, Published v p ∨ (∃ op ∈ plan.ops v.number, op.target = p) →
      actAll s' (plan.ops v.number) p = actAll s (plan.ops v.number) p := fun p hp =>
    actAll_write_congr hw (hp.imp_left (h p))
  cases hn : plan.next with
  | none =>
    -- nothing is published
    have hkeep : ∀ {p : Path}, (∀ {q : Path}, IsData q → q ≠ p) → ∀ {t : Root β},
        actAll t (plan.ops v.number) p = t p := by
      intro p hne t
      refine actAll_of_ne fun op hop => ?_
      rw [Plan.ops, hn, Option.elim_none, List.append_nil] at hop
      exact hne (isData_of_nextVersion (hdata op hop).2)
    have hstay : ∀ {t : Root β}, actAll t (plan.ops v.number) .latest = t .latest :=
      hkeep IsData.ne_latest
    have hstayM : ∀ {t : Root β}, actAll t (plan.ops v.number) (.manifest v.number) =
        t (.manifest v.number) := hkeep fun hd => hd.ne_manifest _
    refine view_congr (hsame _ (.inl (.inl rfl))) (fun k hk => ?_) fun k m hk hman p hp => ?_
    · rw [latestNumber_congr hstay, hnum'] at hk
      rw [← Option.some.inj hk]
      exact hsame _ (.inl (.inr (.inl rfl)))
    · rw [latestNumber_congr hstay, hnum'] at hk
      rw [← Option.some.inj hk, manifestAt_congr hstayM, (view_eq_some.mp hv').2.1] at hman
      rw [← Option.some.inj hman] at hp
      exact hsame p (.inl (.inr (.inr hp)))
  | some m =>
    obtain ⟨hl', hm'⟩ := published_ops (s := s') (n := v.number) hn
    have hin : ∀ op ∈ plan.data, op ∈ plan.ops v.number := fun op hop => List.mem_append_left _ hop
    have hpub : ∀ op ∈ (publish v.number m : Ops β), op ∈ plan.ops v.number := by
      intro op hop
      refine List.mem_append_right _ ?_
      rw [hn]
      exact hop
    refine view_congr (hsame _ (.inl (.inl rfl))) (fun k hk => ?_) fun k x hk hman p hp => ?_
    · rw [← Option.some.inj (hl'.symm.trans hk)]
      exact hsame _ (.inr ⟨_, hpub _ List.mem_cons_self, rfl⟩)
    · rw [← Option.some.inj (hl'.symm.trans hk), hm'] at hman
      rw [← Option.some.inj hman] at hp
      rcases href m hn p hp with hp | ⟨op, hop, ht⟩
      · exact hsame p (.inl (.inr (.inr hp)))
      · exact hsame p (.inr ⟨op, hin op hop, ht⟩)

/-- **Runs are crash-atomic.** A run that stops before it replaces `LATEST` has changed neither
`LATEST` nor the manifest it names nor a file that this references, and a later run publishes
what it would have published without it. -/
theorem run_crash_atomic (hs : Reachable resolve s) (hv : view s = some v)
    (f : Fetched) (pre : Ops β) (hpre : pre <+: opsOf resolve s (.update f))
    (hl : ∀ op ∈ pre, op.target ≠ .latest) : (∀ p, Published v p → actAll s pre p = s p) ∧
      ∀ f', view (update resolve (actAll s pre) f') = view (update resolve s f') := by
  have hm : Placed v.manifest := placed_of_reachable hs v hv
  have hframe : ∀ p, Published v p → actAll s pre p = s p := fun p =>
    published_frame hv hm hpre hl
  exact ⟨hframe, fun f' => view_update_congr hv hframe f'⟩

/-- What a run resolves over a base that is kept in one file. -/
def resolveWhole (v : View Base) (f : Fetched) : HistoryRun :=
  match v.seen (.table v.manifest.generation (.byid .node 0)), loadDeltas v with
  | some (.base b), some d => ⟨tierRun ⟨b, d⟩ f, fun _ => []⟩
  | _, _ => ⟨⟨fun _ => [], 0, 0, none⟩, fun _ => []⟩

/-- A base with one node, and a run that moves it. -/
def movedOnce : Layout.Root Base :=
  let built : Layout.Root Base := actAll (fun _ => none)
    ((opsOf resolveWhole (fun _ => none) (.build "g0001"
      none none [(.byid .node 0, oneNode)])).take 3)
  actAll built
    ((opsOf resolveWhole built (.update (moveNode 1 2 ⟨450000000, 900000000⟩ 34200))).take 9)

lemma reachable_movedOnce : Reachable resolveWhole movedOnce := .step _ _ _ (.step _ _ _ .empty)

/-- The next run, killed when it has written its files and the manifest. -/
def killedMove : Ops Base :=
  (opsOf resolveWhole movedOnce (.update (moveNode 2 3 ⟨450000000, -900000000⟩ 34260))).take 8

theorem run_crash_atomic_second_move : killedMove.length = 8 ∧ ∃ v, view movedOnce = some v ∧
    (∀ p, Published v p → actAll movedOnce killedMove p = movedOnce p) ∧
      ∀ f', view (update resolveWhole (actAll movedOnce killedMove) f') =
        view (update resolveWhole movedOnce f') := by
  have hsome : (view movedOnce).isSome = true := by decide
  obtain ⟨v, hv⟩ := Option.isSome_iff_exists.mp hsome
  have hl : ∀ op ∈ killedMove, op.target ≠ .latest := by decide
  exact ⟨by decide, v, hv, run_crash_atomic reachable_movedOnce hv _ killedMove
    (List.take_prefix _ _) hl⟩

end Runs

/-! ### What a run publishes

The tiers that are found through the manifest of a run are those it has computed from the tiers
that it had found. -/

section Loaded

variable {resolve : View β → Fetched → HistoryRun} {s : Root β} {v : View β} {d : Deltas}

lemma mem_tierFiles (x : TierFile) : x ∈ TierFile.all := by
  cases x with
  | table t c => cases t <;> cases c <;> decide
  | tombstones => decide

lemma loadTier_congr {seen seen' : Path → Option (File β)} {doc : TierDoc TierFile}
    (h : ∀ x, seen (doc.files x) = seen' (doc.files x)) :
    loadTier seen doc = loadTier seen' doc := by
  simp only [loadTier, loadFiles, h]

/-- A tier whose files are there is found as it was written. -/
lemma loadTier_written {seen : Path → Option (File β)} {m : TierMeta} {files : TierFile → Path}
    (h : ∀ x, seen (files x) = some (deltaFile m x)) :
    loadTier seen ⟨m.version, m.seqFrom, m.seqTo, m.timestamp, files⟩ = some m := by
  have hfiles : ∀ t, loadFiles seen ⟨m.version, m.seqFrom, m.seqTo, m.timestamp, files⟩ t =
      some (m.files t) := by
    intro t
    simp [loadFiles, h, deltaFile, File.deltaByid?, File.deltaSpatial?]
  have hby : byType (m.files .node) (m.files .way) (m.files .relation) = m.files := by
    funext t
    cases t <;> rfl
  simp only [loadTier, hfiles, Option.bind_some, Option.map_some, hby]

/-- A run publishes the entries of its tiers, and writes their files. -/
lemma runPlan_next {r : HistoryRun} {m : Manifest} (hn : (runPlan v d r).next = some m) :
    m.deltas = deltaDocs v.manifest d (runTiers d r.tiers) ∧ m.generation = v.manifest.generation ∧
      ∀ op ∈ writeDeltas v.manifest.generation d (runTiers d r.tiers), op ∈
        (runPlan v d r).data := by
  unfold runPlan at hn ⊢
  simp only at hn ⊢
  split at hn
  · cases hn
    exact ⟨rfl, rfl, fun _ h => h⟩
  · split at hn
    · split at hn
      · cases hn
      · rename_i hr hrows x old new hroll
        cases hn
        refine ⟨rfl, rfl, fun op hop => ?_⟩
        rw [if_pos hrows]
        simp only
        exact List.mem_append_left _ hop
    · rename_i hrows
      cases hn
      refine ⟨rfl, rfl, fun op hop => ?_⟩
      rw [if_neg hrows]
      exact hop

/-- The only write to a file of a tier that is written. -/
lemma write_of_target {r : HistoryRun} {tier : Tier} {m : TierMeta}
    (hw : written TierMeta.version (deltaTier d tier)
      (deltaTier (runTiers d r.tiers) tier) = some m)
    {n : ℕ} {x : TierFile} {op : Op Path (File β)} (hop : op ∈ (runPlan v d r).ops n)
    (ht : op.target = .delta v.manifest.generation tier m.version x) :
    op = .write (.delta v.manifest.generation tier m.version x) (deltaFile m x) := by
  have hdelta : ∀ op' ∈ (writeDeltas v.manifest.generation d (runTiers d r.tiers) : Ops β),
      op' = op → op = .write (.delta v.manifest.generation tier m.version x) (deltaFile m x) := by
    rintro op' hop' rfl
    obtain ⟨tier', m', hw', x', -, rfl⟩ := mem_writeDeltas.mp hop'
    injection ht with hg htier hv hx
    subst htier hx
    rw [Option.some.inj (hw'.symm.trans hw)]
  rcases mem_ops hop with hop | ⟨m', -, rfl | rfl⟩
  · unfold runPlan at hop
    simp only at hop
    split at hop
    · exact hdelta op hop rfl
    · split at hop
      · split at hop
        · exact hdelta op hop rfl
        · rcases List.mem_append.mp hop with hop | hop
          · exact hdelta op hop rfl
          · obtain ⟨tier', m', -, y, -, rfl⟩ := mem_writeHistory.mp hop
            cases ht
      · exact hdelta op hop rfl
  · cases ht
  · cases ht

lemma load_of_loadDeltas (hl : loadDeltas v = some d) (tier : Tier) :
    load (loadTier v.seen) (v.manifest.deltas tier) = some (deltaTier d tier) := by
  unfold loadDeltas at hl
  obtain ⟨hour, hh, hl⟩ := Option.bind_eq_some_iff.mp hl
  obtain ⟨day, hd, hl⟩ := Option.bind_eq_some_iff.mp hl
  obtain ⟨week, hw, rfl⟩ := Option.map_eq_some_iff.mp hl
  cases tier
  · exact hh
  · exact hd
  · exact hw

/-- A run changes no file of a tier entry that it keeps. -/
lemma update_of_referenced (hs : Reachable resolve s) (hv : view s = some v)
    (f : Fetched) {p : Path} (hp : p ∈ referencedPaths v.manifest) :
    update resolve s f p = s p := by
  have hplaced : Placed v.manifest := placed_of_reachable hs v hv
  have hdata : IsData p := (hplaced.lies hp).isData
  refine actAll_of_ne fun op hop ht => ?_
  rw [opsOf, hv, (view_eq_some.mp hv).1, Option.getD_some] at hop
  rcases mem_ops hop with hop | ⟨m, -, rfl | rfl⟩
  · exact not_referenced_of_nextVersion hplaced ((adds_planOf resolve v f).data op hop).2 (ht ▸ hp)
  · exact hdata.ne_manifest _ ht.symm
  · exact hdata.ne_latest ht.symm

/-- **A run publishes the tiers it has computed.** -/
theorem loadDeltas_update (hs : Reachable resolve s) (hv : view s = some v)
    (hl : loadDeltas v = some d) {f : Fetched} (hf : f.diffs ≠ []) {m : Manifest}
    (hn : (runPlan v d (resolve v f)).next = some m) :
    (view (update resolve s f)).bind loadDeltas = some (runTiers d (resolve v f).tiers) := by
  have hplaced : Placed v.manifest := placed_of_reachable hs v hv
  obtain ⟨hnum, -, hseen⟩ := view_eq_some.mp hv
  obtain ⟨hdocs, hgen, hdata⟩ := runPlan_next hn
  have hops : update resolve s f = actAll s ((runPlan v d (resolve v f)).ops v.number) := by
    simp [update, opsOf, planOf, hv, hl, hf, hnum]
  obtain ⟨hlast, hman⟩ := published_ops (s := s) (n := v.number) hn
  rw [← hops] at hlast hman
  have hview : view (update resolve s f) = some ⟨v.number + 1, m, fun p =>
      if p ∈ referencedPaths m then update resolve s f p else none⟩ := view_eq_some.mpr
        ⟨hlast, hman, rfl⟩
  rw [hview, Option.bind_some]
  have htier : ∀ tier, load (loadTier fun p => if p ∈
      referencedPaths m then update resolve s f p else none)
      (m.deltas tier) = some (deltaTier (runTiers d (resolve v f).tiers) tier) := by
    intro tier
    have hin : ∀ doc ∈ m.deltas tier, ∀ x, doc.files x ∈ referencedPaths m := by
      intro doc hdoc x
      simp only [referencedPaths, List.mem_append]
      exact .inl (.inr (mem_tierPaths.mpr ⟨tier, doc, hdoc, x, mem_tierFiles x, rfl⟩))
    have hadv := advances_runTiers d (resolve v f).tiers tier
    cases hw : written TierMeta.version (deltaTier d tier)
        (deltaTier (runTiers d (resolve v f).tiers) tier) with
    | some x =>
      have hdoc : m.deltas tier = some ⟨x.version, x.seqFrom, x.seqTo, x.timestamp,
          .delta v.manifest.generation tier x.version⟩ := by rw [hdocs, deltaDocs, hw]; rfl
      rw [hdoc, (written_eq_some hw).1, load, loadTier_written (fun y => ?_), Option.map_some]
      rw [if_pos (hin _ hdoc y), hops]
      have hwrite := hdata _ (mem_writeDeltas.mpr ⟨tier, x, hw, y, mem_tierFiles y, rfl⟩)
      exact actAll_eq_some (.inr ⟨_, List.mem_append_left _ hwrite, rfl⟩) fun op hop =>
        write_of_target hw hop
    | none =>
      have hdoc : m.deltas tier = v.manifest.deltas tier := by rw [hdocs, deltaDocs, hw]; rfl
      rw [hadv.eq_of_not_written hw, ← load_of_loadDeltas hl tier]
      rw [hdoc] at hin ⊢
      cases hd : v.manifest.deltas tier with
      | none => rfl
      | some doc =>
        have hold : ∀ x, doc.files x ∈ referencedPaths v.manifest := by
          intro x
          simp only [referencedPaths, List.mem_append]
          exact .inl (.inr (mem_tierPaths.mpr ⟨tier, doc, hd, x, mem_tierFiles x, rfl⟩))
        refine congrArg (Option.map some) (loadTier_congr fun x => ?_)
        have hx : v.seen (doc.files x) = s (doc.files x) := by
          rw [hseen]
          exact if_pos (hold x)
        rw [if_pos (hin doc hd x), hx]
        exact update_of_referenced hs hv f (hold x)
  simp only [loadDeltas, htier, Option.bind_some, Option.map_some]
  rfl

end Loaded

end OsmParquet.Publishing
