import OsmParquet.Publishing
import OsmParquet.Traces

/-!
The commands that build something anew over a published root: areas, history and compaction.

Their files lie under a generation alone. A first build of areas or of a history writes where
nothing is published yet, and so does compaction into a generation of another name. A second build
in the same generation, or compaction into the generation that it reads, writes over files of the
manifest that `LATEST` names.
-/

namespace OsmParquet.Rebuilds

open OsmParquet.Rows OsmParquet.Updater OsmParquet.HistoryTiers OsmParquet.FileStore
open OsmParquet.Traces OsmParquet.Layout OsmParquet.Publishing

variable {β : Type}

def IsRebuild : Command β → Prop
  | .areas .. | .historyBuild _ | .compact .. => True
  | _ => False

instance decidableIsRebuild : (c : Command β) → Decidable (IsRebuild c)
  | .areas .. | .historyBuild _ | .compact .. => .isTrue trivial
  | .build .. | .update _ | .historyInit _ => .isFalse id

/-- The type of a file of a base history. -/
def historyType : Path → Option Typ
  | .history _ (.byid t _) => some t
  | .history _ (.spatial t _ _) => some t
  | _ => none

/-- What a rebuild makes is not there yet: there are no areas, the history has no file of a type
that the new one has a file of, and the generation to compact into has another name. -/
def Clear (v : View β) : Command β → Prop
  | .areas .. => v.manifest.areas = none
  | .historyBuild x => ∀ h ∈ v.manifest.history, ∀ p ∈ h.files, ∀ t ∈ historyType p,
      x.spatial t = [] ∧ x.byid t = []
  | .compact generation _ => newGeneration v.number generation ≠ v.manifest.generation
  | _ => True

instance decidableClear (v : View β) : (c : Command β) → Decidable (Clear v c)
  | .areas .. => inferInstanceAs (Decidable (v.manifest.areas = none))
  | .historyBuild x => inferInstanceAs (Decidable (∀ h ∈ v.manifest.history, ∀ p ∈ h.files,
      ∀ t ∈ historyType p, x.spatial t = [] ∧ x.byid t = []))
  | .compact generation _ =>
    inferInstanceAs (Decidable (newGeneration v.number generation ≠ v.manifest.generation))
  | .build .. | .update _ | .historyInit _ => .isTrue trivial

section Step

variable (resolve : View β → Fetched → HistoryRun)

/-- A command that stops after some of its operations. -/
def stopAfter (s : Root β) (x : Command β × ℕ) : Option (Root β) :=
  some (actAll s ((opsOf resolve s x.1).take x.2))

/-- A command leaves what is published when it starts: no operation is on a file that the latest
manifest references, whoever holds the manifest reads the same files at any moment, and until
`LATEST` is replaced all readers do. -/
def LeavesPublished (s : Root β) (c : Command β) : Prop :=
  ∀ v ∈ view s, (∀ op ∈ opsOf resolve s c, op.target ∉ referencedPaths v.manifest) ∧
    ∀ pre, pre <+: opsOf resolve s c →
      (∀ p ∈ referencedPaths v.manifest, actAll s pre p = s p) ∧
        ((∀ op ∈ pre, op.target ≠ .latest) → view (actAll s pre) = some v)

end Step

/-! ### Where the rebuilds write -/

section Targets

variable {m : Manifest} {op : Op Path (File β)}

lemma historyType_file {g : String} {name : ℕ → String} {x : HistoryLayout β} {y : HistoryFile × β}
    (hy : y ∈ x.files name) : ∃ t, historyType (.history g y.1) = some t ∧
      ¬ (x.spatial t = [] ∧ x.byid t = []) := by
  obtain ⟨t, -, hy⟩ := List.mem_flatMap.mp hy
  rcases List.mem_append.mp hy with hy | hy
  · obtain ⟨c, hc, hy⟩ := List.mem_flatMap.mp hy
    obtain ⟨b, -, rfl⟩ := List.mem_map.mp hy
    exact ⟨t, rfl, fun h => List.ne_nil_of_mem hc h.1⟩
  · obtain ⟨b, hb, rfl⟩ := List.mem_map.mp hy
    refine ⟨t, rfl, fun h => ?_⟩
    rw [h.2] at hb
    cases hb

/-- The areas have places of their own. -/
lemma not_referenced_of_areas (hm : Placed m) (ha : m.areas = none) {cells : List (Cell × β)}
    {index wayIndex : β} (hop : op ∈ (areasPlan m cells index wayIndex).data) :
    op.target ∉ referencedPaths m := by
  intro hr
  obtain ⟨y, -, ht⟩ := target_of_writeFiles hop
  rw [ht] at hr
  cases hm.lies hr with
  | area _ h =>
    rw [ha] at h
    cases h

lemma not_referenced_of_history (hm : Placed m) {name : ℕ → String} {x : HistoryLayout β}
    (hx : ∀ h ∈ m.history, ∀ p ∈ h.files, ∀ t ∈ historyType p, x.spatial t = [] ∧ x.byid t = [])
    (hop : op ∈ (historyPlan m name x).data) : op.target ∉ referencedPaths m := by
  intro hr
  obtain ⟨y, hy, ht⟩ := target_of_writeFiles hop
  rw [ht] at hr
  obtain ⟨t, hty, hne⟩ := historyType_file (g := m.generation) hy
  cases hm.lies hr with
  | history d hd _ hin => exact hne (hx d hd _ hin t hty)

/-- All files of a manifest that are not those of its tiers lie under its generation. -/
lemma not_referenced_of_compact (hm : Placed m) {g : String} (hg : g ≠ m.generation)
    {x : Compacted β} (hop : op ∈ (compactPlan m g x).data) : op.target ∉ referencedPaths m := by
  intro hr
  rcases target_of_compactPlan hop with ⟨y, ht⟩ | ⟨y, ht⟩ | ⟨y, ht⟩ <;> rw [ht] at hr
  · cases hm.lies hr
    exact hg rfl
  · cases hm.lies hr
    exact hg rfl
  · cases hm.lies hr
    exact hg rfl

end Targets

/-! ### One rebuild, and a sequence of them -/

section Run

variable {resolve : View β → Fetched → HistoryRun} {s : Root β} {v : View β} {c : Command β}

lemma not_referenced_of_clear (hm : Placed v.manifest) (hc : IsRebuild c) (hclear : Clear v c)
    {op : Op Path (File β)} (hop : op ∈ (planOf resolve (some v) c).data) :
    op.target ∉ referencedPaths v.manifest := by
  cases c with
  | areas => exact not_referenced_of_areas hm hclear hop
  | historyBuild => exact not_referenced_of_history hm hclear hop
  | compact => exact not_referenced_of_compact hm hclear hop
  | build => cases hc
  | update => cases hc
  | historyInit => cases hc

/-- **One rebuild.** -/
lemma leavesPublished_of_clear (hs : Reachable resolve s) (hc : IsRebuild c)
    (hclear : ∀ v ∈ view s, Clear v c) : LeavesPublished resolve s c := by
  intro v hv
  have hm : Placed v.manifest := placed_of_reachable hs v hv
  have hnum : latestNumber s = some v.number := (view_eq_some.mp hv).1
  have hord := orderly_planOf resolve (v := some v) (by rintro x ⟨⟩; exact hm) c
  have hops : opsOf resolve s c = (planOf resolve (some v) c).ops v.number := by
    rw [opsOf, Option.mem_def.mp hv, hnum, Option.getD_some]
  have htarget : ∀ op ∈ opsOf resolve s c, op.target ∉ referencedPaths v.manifest := by
    intro op hop hr
    have hdata : IsData op.target := (hm.lies hr).isData
    rw [hops] at hop
    rcases mem_ops hop with hop | ⟨m, -, rfl | rfl⟩
    · exact not_referenced_of_clear hm hc (hclear v hv) hop hr
    · exact hdata
    · exact hdata
  refine ⟨htarget, fun pre hpre => ?_⟩
  have hfiles : ∀ p ∈ referencedPaths v.manifest, actAll s pre p = s p := fun p hp =>
    actAll_of_ne fun op hop ht => htarget op (hpre.subset hop) (ht ▸ hp)
  refine ⟨hfiles, fun hl => view_of_published hv fun p hp => ?_⟩
  rcases hp with rfl | rfl | hp
  · exact actAll_of_ne hl
  · refine actAll_of_ne fun op hop => ?_
    have hin := hpre.subset hop
    rw [hops] at hin
    rcases mem_ops hin with hin | ⟨m, -, rfl | rfl⟩
    · exact (hord.data op hin).ne_manifest _
    · intro ht
      injection ht with ht
      omega
    · exact Layout.Path.noConfusion
  · exact hfiles p hp

/-- **Rebuilds leave what is published.** In every sequence of rebuilds, each run to its end or
stopped, whose commands find nothing in their place, every command leaves what is published when
it starts. -/
theorem rebuilds_leave_published (hs : Reachable resolve s) {cs : List (Command β × ℕ)}
    (hc : Along (stopAfter resolve) (fun s x => IsRebuild x.1 ∧ ∀ v ∈ view s, Clear v x.1) s cs) :
    Along (stopAfter resolve) (fun s x => LeavesPublished resolve s x.1) s cs := by
  refine along_keeps (fun s x s' hs _ hs' => ?_) (fun s x hs h => ?_) hs hc
  · cases hs'
    exact .step s x.1 x.2 hs
  · exact leavesPublished_of_clear hs h.1 h.2

end Run

/-! ### Rebuilds of a small root -/

/-- A run that resolves nothing. -/
def resolveNothing (_ : View ℕ) (_ : Fetched) : HistoryRun :=
  ⟨⟨fun _ => [], 0, 0, none⟩, fun _ => []⟩

def run (s : Layout.Root ℕ) (c : Command ℕ) : Layout.Root ℕ := actAll s (opsOf resolveNothing s c)

lemma reachable_run {s : Layout.Root ℕ} (h : Reachable resolveNothing s) (c : Command ℕ) :
    Reachable resolveNothing (run s c) := by
  have hstep := Reachable.step s c (opsOf resolveNothing s c).length h
  rwa [List.take_length] at hstep

/-- A root with the nodes in one file. -/
def built : Layout.Root ℕ := run (fun _ => none) (.build "g0001" none none [(.byid .node 0, 0)])

lemma reachable_built : Reachable resolveNothing built := reachable_run .empty _

def areasOf (k : ℕ) : Command ℕ := .areas [] k k

/-- A history of the nodes in one part. -/
def historyOf (k : ℕ) : Command ℕ := .historyBuild ⟨fun _ => [], byType [k] [] []⟩

/-- Compaction that changes nothing. -/
def relink (generation : Option String) : Command ℕ :=
  .compact generation ⟨[(.byid .node 0, .place (.table "g0001" (.byid .node 0)))], fun _ => 0,
    [(.index, .copy 2), (.wayIndex, .copy 2)], [(.byid .node 0, .copy 2)]⟩

/-- The first areas, the first history, and compaction. -/
def firstRebuilds : List (Command ℕ × ℕ) := [(areasOf 1, 4), (historyOf 1, 3), (relink none, 10)]

theorem rebuilds_leave_published_first : Along (stopAfter resolveNothing)
    (fun s x => LeavesPublished resolveNothing s x.1) built firstRebuilds :=
  rebuilds_leave_published reachable_built (by decide)

/-- The content of a file that is not one of the tiers. -/
def content : File ℕ → Option ℕ
  | .base k => some k
  | _ => none

lemma not_leavesPublished {s : Layout.Root ℕ} {c : Command ℕ} {p : Path} (k : ℕ)
    (hp : (view s).any (fun v => decide (p ∈ referencedPaths v.manifest)) = true)
    (hne : (actAll s ((opsOf resolveNothing s c).take k) p).bind content ≠ (s p).bind content) :
    ¬ LeavesPublished resolveNothing s c := by
  intro h
  obtain ⟨v, hv, hr⟩ := (Option.any_eq_true _ _).mp hp
  have hsame := ((h v hv).2 _ (List.take_prefix k _)).1 p (of_decide_eq_true hr)
  rw [hsame] at hne
  exact hne rfl

/-- The second areas and the second history write over the first, and compaction into the
generation that it reads removes what it is to link. -/
theorem second_rebuilds_touch_published :
    (Reachable resolveNothing (run built (areasOf 1)) ∧
      ¬ LeavesPublished resolveNothing (run built (areasOf 1)) (areasOf 2)) ∧
    (Reachable resolveNothing (run built (historyOf 1)) ∧
      ¬ LeavesPublished resolveNothing (run built (historyOf 1)) (historyOf 2)) ∧
    Reachable resolveNothing built ∧
      ¬ LeavesPublished resolveNothing built (relink (some "g0001")) := by
  refine ⟨⟨reachable_run reachable_built _, ?_⟩, ⟨reachable_run reachable_built _, ?_⟩,
    reachable_built, ?_⟩
  · apply not_leavesPublished (p := .area "g0001" .index) 1
    · decide
    · decide
  · apply not_leavesPublished (p := .history "g0001" (.byid .node 0)) 1
    · decide
    · decide
  · apply not_leavesPublished (p := .table "g0001" (.byid .node 0)) 1
    · decide
    · decide

end OsmParquet.Rebuilds
