import OsmParquet.Rebuilds
import Mathlib.Data.List.Sort
import Mathlib.Order.Interval.Finset.Nat

/-!
Garbage collection beside a running command.

The collector takes the numbers of the manifests that are there, reads the newest of them, lists
the files, and then removes one by one what these manifests do not reference, and the older
manifests last. It never reads `LATEST`. A command writes its files first, then its manifest and
`LATEST` last. Both may be killed at any moment.

The collector is safe if the manifest that `LATEST` names is among the newest ones it keeps, and
if no command writes its files and its manifest while it runs. Directories are left out.
-/

namespace OsmParquet.GarbageCollect

open OsmParquet.Rows OsmParquet.Updater OsmParquet.HistoryTiers OsmParquet.FileStore
open OsmParquet.Traces OsmParquet.Layout OsmParquet.Publishing OsmParquet.Rebuilds

variable {β : Type}

/-! ### The collector and the commands -/

/-- A command at work: its plan, the number of the manifest it has read, and how many of its
operations are done. -/
structure Writer (β : Type) where
  number : ℕ
  plan : Plan β
  done : ℕ

def Writer.next (w : Writer β) : Option (Op Path (File β)) := (w.plan.ops w.number)[w.done]?

/-- A collector at work: it has manifests to read, or files to remove. -/
inductive Gc where
  | reading (toRead older : List ℕ) (referenced : List Path)
  | removing (pending : List Path)

/-- A root, the files that there have ever been, and who is at work. -/
structure Sys (β : Type) where
  root : Root β
  paths : List Path
  writer : Option (Writer β)
  gc : Option Gc

def start : Sys β := ⟨fun _ => none, [], none, none⟩

def manifestNumber : Path → Option ℕ
  | .manifest n => some n
  | _ => none

instance decidableIsData : DecidablePred IsData
  | .latest | .manifest _ => .isFalse id
  | .table .. | .area .. | .delta .. | .history .. | .historyTier .. => .isTrue trivial

/-- The numbers of the manifests, in order. -/
def manifestNumbers (s : Sys β) : List ℕ :=
  ((s.paths.filterMap manifestNumber).filter fun n =>
    (s.root (.manifest n)).isSome).dedup.insertionSort (· ≤ ·)

/-- The newest manifests. -/
def keepNumbers (numbers : List ℕ) (keep : ℕ) : List ℕ := numbers.drop (numbers.length - keep)

def allFiles (s : Sys β) : List Path :=
  s.paths.dedup.filter fun p => IsData p ∧ (s.root p).isSome = true

inductive Event (β : Type) where
  | start (c : Command β)
  | proceed
  | kill
  | gc (keep : ℕ)
  | read (n : ℕ)
  | list (files : List Path)
  | remove
  | killGc

def source : Step β → Option Path
  | .place src => some src
  | _ => none

/-- What compaction can make: every file once, and links to files of the manifest it has read. -/
def FromManifest (m : Manifest) (x : Compacted β) : Prop :=
  (x.tables.map Prod.fst).Nodup ∧ (x.areas.map Prod.fst).Nodup ∧ (x.history.map Prod.fst).Nodup ∧
    ∀ y ∈ x.tables.map Prod.snd ++ x.areas.map Prod.snd ++ x.history.map Prod.snd,
      ∀ src ∈ source y, src ∈ referencedPaths m

instance decidableFromManifest (m : Manifest) (x : Compacted β) : Decidable (FromManifest m x) :=
  inferInstanceAs (Decidable (_ ∧ _ ∧ _ ∧ _))

/-- A command that can be started on a root. -/
def Startable (s : Root β) : Command β → Prop
  | .compact _ x => ∀ v ∈ view s, FromManifest v.manifest x
  | _ => True

instance decidableStartable (s : Root β) : (c : Command β) → Decidable (Startable s c)
  | .compact _ x => inferInstanceAs (Decidable (∀ v ∈ view s, FromManifest v.manifest x))
  | .build .. | .update _ | .areas .. | .historyInit _ | .historyBuild _ => .isTrue trivial

section Machine

variable (resolve : View β → Fetched → HistoryRun)

def startCommand (s : Sys β) (c : Command β) : Option (Sys β) :=
  if s.writer.isNone = true ∧ Startable s.root c then
    some { s with
      writer := some ⟨(latestNumber s.root).getD 0, planOf resolve (view s.root) c, 0⟩ }
  else none

def advance (s : Sys β) (w : Writer β) (op : Op Path (File β)) : Sys β := { s with
  root := act s.root op
  paths := op.target :: s.paths
  writer := some { w with done := w.done + 1 } }

/-- The next operation of the command, or its end. -/
def proceed (s : Sys β) (w : Writer β) : Sys β :=
  match w.next with
  | some op => advance s w op
  | none => { s with writer := none }

/-- The collector takes the numbers of the manifests, and returns if there are none. -/
def startGc (s : Sys β) (keep : ℕ) : Sys β :=
  let numbers := manifestNumbers s
  if numbers = [] then s
  else
    let kept := keepNumbers numbers keep
    { s with gc := some (.reading kept (numbers.filter (· ∉ kept)) []) }

/-- The manifests are read in the order of a set; a missing one ends the collector. -/
def readManifest (s : Sys β) (toRead older : List ℕ) (referenced : List Path) (n : ℕ) : Sys β :=
  { s with gc := (manifestAt s.root n).map fun m =>
      .reading (toRead.erase n) older (referenced ++ referencedPaths m) }

def unreferenced (s : Sys β) (referenced : List Path) : List Path :=
  (allFiles s).filter (· ∉ referenced)

/-- A file that is gone ends the collector. -/
def removeFile (s : Sys β) (p : Path) (pending : List Path) : Sys β :=
  if (s.root p).isSome then
    { s with root := act s.root (.remove p), gc := some (.removing pending) }
  else { s with gc := none }

def step (s : Sys β) : Event β → Option (Sys β)
  | .start c => startCommand resolve s c
  | .proceed => s.writer.map (proceed s)
  | .kill => some { s with writer := none }
  | .gc keep => if s.gc.isSome then none else some (startGc s keep)
  | .read n =>
    match s.gc with
    | some (.reading toRead older referenced) =>
      if n ∈ toRead then some (readManifest s toRead older referenced n) else none
    | _ => none
  | .list files =>
    match s.gc with
    | some (.reading [] older referenced) =>
      -- the files are listed in any order
      if files.isPerm (unreferenced s referenced) then
        some { s with gc := some (.removing (files ++ older.map .manifest)) }
      else none
    | _ => none
  | .remove =>
    match s.gc with
    | some (.removing []) => some { s with gc := none }
    | some (.removing (p :: pending)) => some (removeFile s p pending)
    | _ => none
  | .killGc => some { s with gc := none }

end Machine

/-! ### When the collector is safe -/

/-- A command that has written nothing yet, or its manifest too. -/
def Writer.Quiet (w : Writer β) : Prop := w.done = 0 ∨ w.plan.data.length < w.done

instance decidableQuiet (w : Writer β) : Decidable w.Quiet := inferInstanceAs (Decidable (_ ∨ _))

/-- While a collector runs, a command writes neither files nor its manifest, and none is at it
when the collector starts. The collector keeps two manifests, or one if there is none above the one
that `LATEST` names. Compaction writes into another generation than it reads. -/
def Careful (s : Sys β) : Event β → Prop
  | .start (.compact generation _) => ∀ v ∈ view s.root,
      newGeneration v.number generation ≠ v.manifest.generation
  | .proceed => s.gc.isNone = true ∨ ∀ w ∈ s.writer, ∀ op ∈ w.next, op.target = .latest
  | .gc keep => (∀ w ∈ s.writer, w.Quiet) ∧
      (2 ≤ keep ∨ 1 ≤ keep ∧ ∀ n ∈ manifestNumbers s, n ≤ (latestNumber s.root).getD 0)
  | _ => True

instance decidableCareful (s : Sys β) : (e : Event β) → Decidable (Careful s e)
  | .start (.compact generation _) => inferInstanceAs (Decidable (∀ v ∈ view s.root,
      newGeneration v.number generation ≠ v.manifest.generation))
  | .proceed => inferInstanceAs (Decidable (_ ∨ _))
  | .gc _ => inferInstanceAs (Decidable (_ ∧ _))
  | .start (.build ..) | .start (.update _) | .start (.areas ..) | .start (.historyInit _)
  | .start (.historyBuild _) | .kill | .read _ | .list _ | .remove | .killGc => .isTrue trivial

/-- The manifest that `LATEST` names is there, and every file it references. -/
def Whole (s : Root β) : Prop :=
  ∀ n ∈ latestNumber s, ∃ m ∈ manifestAt s n, ∀ p ∈ referencedPaths m, (s p).isSome = true

instance decidableWhole (s : Root β) : Decidable (Whole s) :=
  inferInstanceAs (Decidable (∀ n ∈ latestNumber s, ∃ m ∈ manifestAt s n, _))

/-! ### What the plans leave there -/

/-- With the files of the published manifest there, a plan leaves all files of the next one. -/
def Completes (published : List Path) (plan : Plan β) : Prop :=
  ∀ s : Root β, (∀ p ∈ published, (s p).isSome = true) → ∀ m ∈ plan.next,
    ∀ p ∈ referencedPaths m, (actAll s plan.data p).isSome = true

/-- A plan removes none of the files of the published manifest. -/
def Spares (published : List Path) (plan : Plan β) : Prop :=
  ∀ op ∈ plan.data, op.IsWrite ∨ op.target ∉ published

/-- What a plan that only writes leaves. -/
lemma completes_of_writes {published : List Path} {plan : Plan β}
    (hw : ∀ op ∈ plan.data, op.IsWrite) (hr : ∀ m ∈ plan.next, ∀ p ∈ referencedPaths m, p ∈
      published ∨ ∃ op ∈ plan.data, op.target = p) :
    Completes published plan ∧ Spares published plan := by
  refine ⟨fun s hs m hm p hp => ?_, fun op hop => .inl (hw op hop)⟩
  rcases hr m hm p hp with hin | hex
  · exact isSome_actAll_write hw (.inl (hs p hin))
  · exact isSome_actAll_write hw (.inr hex)

lemma completes_nothing (published : List Path) :
    Completes published (⟨[], none⟩ : Plan β) ∧ Spares published (⟨[], none⟩ : Plan β) :=
  ⟨fun _ _ _ h => (Option.not_mem_none _ h).elim, fun _ h => (List.not_mem_nil h).elim⟩

section Writes

variable {φ : Type} {place : φ → Path} {op : Op Path (File β)}

lemma isWrite_of_writeFiles {xs : List (φ × β)} (hop : op ∈ writeFiles place xs) : op.IsWrite := by
  obtain ⟨x, -, rfl⟩ := List.mem_map.mp hop
  trivial

/-- The files are those that are written. -/
lemma exists_of_pathsOf {xs : List (φ × β)} {p : Path} (hp : p ∈ pathsOf place xs) :
    ∃ op ∈ writeFiles place xs, op.target = p := by
  obtain ⟨x, hx, rfl⟩ := List.mem_map.mp hp
  exact ⟨_, List.mem_map_of_mem hx, rfl⟩

end Writes

lemma completes_historyPlan (m : Manifest) (name : ℕ → String) (x : HistoryLayout β) :
    Completes (referencedPaths m) (historyPlan m name x) ∧
      Spares (referencedPaths m) (historyPlan m name x) := by
  refine completes_of_writes (fun op hop => isWrite_of_writeFiles hop) ?_
  rintro m' ⟨⟩ p hp
  simp only [referencedPaths, List.mem_append, Option.elim_some, HistoryDoc.paths] at hp ⊢
  rcases hp with ((hp | hp) | hp) | hp | hp
  · exact .inl (.inl (.inl (.inl hp)))
  · exact .inl (.inl (.inl (.inr hp)))
  · exact .inl (.inl (.inr hp))
  · exact .inr (exists_of_pathsOf hp)
  · obtain ⟨tier, doc, hd, -⟩ := mem_tierPaths.mp hp
    cases hd

lemma completes_areasPlan (m : Manifest) (cells : List (Cell × β)) (index wayIndex : β) :
    Completes (referencedPaths m) (areasPlan m cells index wayIndex) ∧
      Spares (referencedPaths m) (areasPlan m cells index wayIndex) := by
  refine completes_of_writes (fun op hop => isWrite_of_writeFiles hop) ?_
  rintro m' ⟨⟩ p hp
  simp only [referencedPaths, List.mem_append, Option.getD_some] at hp ⊢
  rcases hp with ((hp | hp) | hp) | hp
  · exact .inl (.inl (.inl (.inl hp)))
  · exact .inr (exists_of_pathsOf hp)
  · exact .inl (.inl (.inr hp))
  · exact .inl (.inr hp)

/-! ### What compaction leaves there -/

section Steps

variable {φ : Type} {place : φ → Path}

/-- A file that is not removed again is there, if there was a file to link. -/
lemma isSome_ops {s : Root β} {p : Path} {y : Step β} (hy : y.isEmpty = false)
    (hs : ∀ src ∈ source y, src ≠ p ∧ (s src).isSome = true) :
    (actAll s (y.ops p) p).isSome = true := by
  cases y with
  | place src =>
    obtain ⟨hne, hsome⟩ := hs src rfl
    simp [Step.ops, act, Function.update_of_ne hne, hsome]
  | copy => simp [Step.ops, act]
  | copyEmpty => cases hy

lemma actAll_ops_of_ne {s : Root β} {p q : Path} {y : Step β} (h : q ≠ p) :
    actAll s (y.ops p) q = s q := by
  refine actAll_of_ne fun op hop => ?_
  cases y <;> simp only [Step.ops, List.mem_cons, List.not_mem_nil, or_false] at hop
  · rcases hop with rfl | rfl <;> exact h.symm
  · rw [hop]
    exact h.symm
  · rcases hop with rfl | rfl <;> exact h.symm

/-- **The files that compaction makes and keeps are there**, if it makes every file once and the
files that it links are there and not among them. -/
lemma isSome_stepOps (hp : Function.Injective place) {xs : List (φ × Step β)}
    (hnodup : (xs.map Prod.fst).Nodup) {s : Root β}
    (hs : ∀ x ∈ xs, ∀ src ∈ source x.2, (∀ y, src ≠ place y) ∧ (s src).isSome = true) {p : Path}
    (hin : p ∈ stepPaths place xs) : (actAll s (stepOps place xs) p).isSome = true := by
  induction xs generalizing s with
  | nil => cases hin
  | cons x xs ih =>
    rw [List.map_cons, List.nodup_cons] at hnodup
    have hx := hs x List.mem_cons_self
    have hops : stepOps place (x :: xs) = x.2.ops (place x.1) ++ stepOps place xs := rfl
    rw [hops, actAll_append]
    obtain ⟨y, hy, rfl⟩ := List.mem_map.mp hin
    obtain ⟨hy, hempty⟩ := List.mem_filter.mp hy
    rcases List.mem_cons.mp hy with rfl | hy
    · -- what follows is about other files
      have hframe : actAll (actAll s (y.2.ops (place y.1))) (stepOps place xs) (place y.1) =
          actAll s (y.2.ops (place y.1)) (place y.1) := by
        refine actAll_of_ne fun op hop ht => hnodup.1 ?_
        obtain ⟨z, hz, htz⟩ := target_of_stepOps hop
        rw [hp (htz.symm.trans ht).symm]
        exact List.mem_map_of_mem hz
      rw [hframe]
      exact isSome_ops (by simpa using hempty) fun src hsrc => ⟨(hx src hsrc).1 _, (hx src hsrc).2⟩
    · refine ih hnodup.2 (fun z hz src hsrc => ?_)
        (List.mem_map.mpr ⟨y, List.mem_filter.mpr ⟨hy, hempty⟩, rfl⟩)
      obtain ⟨hne, hsome⟩ := hs z (List.mem_cons_of_mem _ hz) src hsrc
      rw [actAll_ops_of_ne (hne x.1)]
      exact ⟨hne, hsome⟩

end Steps

lemma table_injective (g : String) : Function.Injective (Path.table g) :=
  fun _ _ h => by cases h; rfl
lemma area_injective (g : String) : Function.Injective (Path.area g) := fun _ _ h => by cases h; rfl
lemma history_injective (g : String) : Function.Injective (Path.history g) := fun _ _ h => by
  cases h
  rfl

/-- The files of a group are there, if what it links is there and is none of the files that are
made, and the operations after it are about other files. -/
lemma isSome_group {φ : Type} {place : φ → Path} {data pre post : Ops β} {xs : List (φ × Step β)}
    (hdata : data = pre ++ (stepOps place xs ++ post)) (hp : Function.Injective place)
    (hnodup : (xs.map Prod.fst).Nodup) {s : Root β}
    (hs : ∀ x ∈ xs, ∀ src ∈ source x.2, (s src).isSome = true ∧ (∀ op ∈ data, op.target ≠ src) ∧
      ∀ y, src ≠ place y) (hpost : ∀ op ∈ post, ∀ y, op.IsWrite ∨ op.target ≠ place y) {p : Path}
    (hin : p ∈ stepPaths place xs) : (actAll s data p).isSome = true := by
  subst hdata
  rw [actAll_append, actAll_append]
  obtain ⟨y, rfl⟩ := place_of_stepPaths hin
  refine isSome_actAll_of_spared (fun op hop => hpost op hop y) ?_
  refine isSome_stepOps hp hnodup (fun x hx src hsrc => ?_) hin
  obtain ⟨hsome, hdata, hne⟩ := hs x hx src hsrc
  rw [actAll_of_ne fun op hop => hdata op (List.mem_append_left _ hop)]
  exact ⟨hne, hsome⟩

/-- A file of another kind. -/
lemma target_ne_of_elim {φ ψ α : Type} {place : φ → Path} {other : ψ → Path} {o : Option α}
    {xs : List (φ × Step β)} {op : Op Path (File β)} (hne : ∀ y z, place y ≠ other z)
    (h : op ∈ o.elim [] fun _ => stepOps place xs) (z : ψ) : op.target ≠ other z := by
  obtain ⟨y, ht⟩ := target_of_elim h
  rw [ht]
  exact hne y z

section Compacts

variable {m : Manifest} {g : String} {x : Compacted β} {s : Root β} {p src : Path}

/-- Compaction makes none of the files of the manifest, nor any file of their generation. -/
lemma not_made (hm : Placed m) (hg : g ≠ m.generation) (hin : src ∈ referencedPaths m) :
    (∀ op ∈ (compactPlan m g x).data, op.target ≠ src) ∧ (∀ y, src ≠ .table g y) ∧
      (∀ y, src ≠ .area g y) ∧ ∀ y, src ≠ .history g y := by
  refine ⟨fun op hop ht => not_referenced_of_compact hm hg hop (ht ▸ hin), ?_, ?_, ?_⟩ <;>
    rintro y rfl <;> cases hm.lies hin <;> exact hg rfl

lemma isSome_table (hm : Placed m) (hg : g ≠ m.generation) (hx : FromManifest m x)
    (hs : ∀ p ∈ referencedPaths m, (s p).isSome = true) (hp : p ∈ stepPaths (.table g) x.tables) :
    (actAll s (compactPlan m g x).data p).isSome = true := by
  have hdata : (compactPlan m g x).data = [] ++ (stepOps (.table g) x.tables ++
      (writeFiles (.table g) (types.map fun t => (.rowgroups t, x.rowgroups t)) ++
        ((m.areas.elim [] fun _ => stepOps (.area g) x.areas) ++
          m.history.elim [] fun _ => stepOps (.history g) x.history))) := by
    simp [compactPlan, List.append_assoc]
  refine isSome_group hdata (table_injective g) hx.1 (fun y hy src hsrc => ?_)
    (fun op hop y => ?_) hp
  · have hin := hx.2.2.2 y.2
      (by simp only [List.mem_append]; exact .inl (.inl (List.mem_map_of_mem hy))) src hsrc
    obtain ⟨hne, htable, -, -⟩ := not_made hm hg hin
    exact ⟨hs src hin, hne, htable⟩
  · simp only [List.mem_append] at hop
    rcases hop with hop | hop | hop
    · exact .inl (isWrite_of_writeFiles hop)
    · exact .inr (target_ne_of_elim (fun _ _ => Layout.Path.noConfusion) hop y)
    · exact .inr (target_ne_of_elim (fun _ _ => Layout.Path.noConfusion) hop y)

lemma isSome_rowgroups
    (hp : p ∈ pathsOf (.table g) (types.map fun t => (TableFile.rowgroups t, x.rowgroups t))) :
    (actAll s (compactPlan m g x).data p).isSome = true := by
  rw [compactPlan, List.append_assoc, actAll_append, actAll_append s]
  obtain ⟨y, rfl⟩ := place_of_pathsOf hp
  refine isSome_actAll_of_spared (fun op hop => .inr ?_)
    (isSome_actAll_write (fun op hop => isWrite_of_writeFiles hop) (.inr (exists_of_pathsOf hp)))
  rcases List.mem_append.mp hop with hop | hop
  · exact target_ne_of_elim (fun _ _ => Layout.Path.noConfusion) hop y
  · exact target_ne_of_elim (fun _ _ => Layout.Path.noConfusion) hop y

lemma isSome_area (hm : Placed m) (hg : g ≠ m.generation) (hx : FromManifest m x)
    (hs : ∀ p ∈ referencedPaths m, (s p).isSome = true) {l : List Path} (ha : m.areas = some l)
    (hp : p ∈ stepPaths (.area g) x.areas) :
    (actAll s (compactPlan m g x).data p).isSome = true := by
  have hdata : (compactPlan m g x).data = (stepOps (.table g) x.tables ++
      writeFiles (.table g) (types.map fun t => (.rowgroups t, x.rowgroups t))) ++
        (stepOps (.area g) x.areas ++
          m.history.elim [] fun _ => stepOps (.history g) x.history) := by
    simp [compactPlan, ha, List.append_assoc]
  refine isSome_group hdata (area_injective g) hx.2.1 (fun y hy src hsrc => ?_)
    (fun op hop y => ?_) hp
  · have hin := hx.2.2.2 y.2
      (by simp only [List.mem_append]; exact .inl (.inr (List.mem_map_of_mem hy))) src hsrc
    obtain ⟨hne, -, harea, -⟩ := not_made hm hg hin
    exact ⟨hs src hin, hne, harea⟩
  · exact .inr (target_ne_of_elim (fun _ _ => Layout.Path.noConfusion) hop y)

lemma isSome_history (hm : Placed m) (hg : g ≠ m.generation) (hx : FromManifest m x)
    (hs : ∀ p ∈ referencedPaths m, (s p).isSome = true) {h : HistoryDoc} (hh : m.history = some h)
    (hp : p ∈ stepPaths (.history g) x.history) :
    (actAll s (compactPlan m g x).data p).isSome = true := by
  have hdata : (compactPlan m g x).data = (stepOps (.table g) x.tables ++
      (writeFiles (.table g) (types.map fun t => (.rowgroups t, x.rowgroups t)) ++
        m.areas.elim [] fun _ => stepOps (.area g) x.areas)) ++
          (stepOps (.history g) x.history ++ []) := by
    simp [compactPlan, hh, List.append_assoc]
  refine isSome_group hdata (history_injective g) hx.2.2.1 (fun y hy src hsrc => ?_)
    (fun op hop => (List.not_mem_nil hop).elim) hp
  have hin :=
    hx.2.2.2 y.2 (by simp only [List.mem_append]; exact .inr (List.mem_map_of_mem hy)) src hsrc
  obtain ⟨hne, -, -, hhistory⟩ := not_made hm hg hin
  exact ⟨hs src hin, hne, hhistory⟩

lemma completes_compactPlan (hm : Placed m) (hg : g ≠ m.generation) (hx : FromManifest m x) :
    Completes (referencedPaths m) (compactPlan m g x) ∧
      Spares (referencedPaths m) (compactPlan m g x) := by
  refine ⟨?_, fun op hop => .inr (not_referenced_of_compact hm hg hop)⟩
  rintro s hs m' ⟨⟩ p hp
  simp only [referencedPaths, List.mem_append] at hp
  rcases hp with (((hp | hp) | hp) | hp) | hp
  · exact isSome_table hm hg hx hs hp
  · exact isSome_rowgroups hp
  · cases ha : m.areas with
    | none => simp [ha] at hp
    | some l =>
      rw [ha, Option.map_some, Option.getD_some] at hp
      exact isSome_area hm hg hx hs ha hp
  · obtain ⟨tier, doc, hd, -⟩ := mem_tierPaths.mp hp
    cases hd
  · cases hh : m.history with
    | none => simp [hh] at hp
    | some h =>
      simp only [hh, Option.map_some, Option.elim_some, HistoryDoc.paths, List.mem_append] at hp
      rcases hp with hp | hp
      · exact isSome_history hm hg hx hs hh hp
      · obtain ⟨tier, doc, hd, -⟩ := mem_tierPaths.mp hp
        cases hd

end Compacts

/-! ### What the commands leave there -/

/-- The files of the manifest that `LATEST` names. -/
def publishedPaths (s : Root β) : List Path :=
  ((latestNumber s).bind (manifestAt s)).elim [] referencedPaths

lemma publishedPaths_of_view {s : Root β} {v : View β} (hv : view s = some v) :
    publishedPaths s = referencedPaths v.manifest := by
  obtain ⟨hl, hm, -⟩ := view_eq_some.mp hv
  rw [publishedPaths, hl, Option.bind_some, hm, Option.elim_some]

lemma completes_build (published : List Path) (g : String) (timestamp sequence : Option ℤ)
    (files : List (TableFile × β)) (resolve : View β → Fetched → HistoryRun) (v : Option (View β)) :
    Completes published (planOf resolve v (.build g timestamp sequence files)) ∧
      Spares published (planOf resolve v (.build g timestamp sequence files)) := by
  refine completes_of_writes (fun op hop => isWrite_of_writeFiles hop) ?_
  rintro m ⟨⟩ p hp
  simp only [referencedPaths, List.mem_append] at hp
  rcases hp with ((hp | hp) | hp) | hp
  · exact .inr (exists_of_pathsOf hp)
  · cases hp
  · obtain ⟨tier, doc, hd, -⟩ := mem_tierPaths.mp hp
    cases hd
  · cases hp

/-- **Every command leaves the files of the manifest it publishes**, and spares those of the
manifest that is published. -/
theorem completes_planOf (resolve : View β → Fetched → HistoryRun) {s : Sys β} {c : Command β}
    (hplaced : ∀ v ∈ view s.root, Placed v.manifest) (hc : Startable s.root c)
    (hcare : Careful s (.start c)) :
    Completes (publishedPaths s.root) (planOf resolve (view s.root) c) ∧
      Spares (publishedPaths s.root) (planOf resolve (view s.root) c) := by
  cases hv : view s.root with
  | none =>
    cases c with
    | build => exact completes_build _ _ _ _ _ _ _
    | update f =>
      simp only [planOf, Option.bind_none, Option.getD_none, ite_self]
      exact completes_nothing _
    | areas => exact completes_nothing _
    | historyInit => exact completes_nothing _
    | historyBuild => exact completes_nothing _
    | compact => exact completes_nothing _
  | some v =>
    rw [publishedPaths_of_view hv]
    cases c with
    | build => exact completes_build _ _ _ _ _ _ _
    | update f =>
      have hadds := adds_planOf resolve v f
      exact completes_of_writes (fun op hop => (hadds.data op hop).1) hadds.referenced
    | areas => exact completes_areasPlan _ _ _ _
    | historyInit x =>
      simp only [planOf, Option.elim_some]
      split
      · exact completes_nothing _
      · exact completes_historyPlan _ _ _
    | historyBuild => exact completes_historyPlan _ _ _
    | compact => exact completes_compactPlan (hplaced v hv) (hcare v hv) (hc v hv)

/-! ### The invariant -/

/-- The manifest is there and has its files where they belong. -/
def Sound (s : Root β) (j : ℕ) : Prop :=
  ∃ m, manifestAt s j = some m ∧ Placed m ∧ ∀ p ∈ referencedPaths m, (s p).isSome = true

/-- A command that has written its manifest but not `LATEST`. -/
def Writer.Publishes (w : Writer β) (j : ℕ) : Prop :=
  w.plan.next.isSome = true ∧ w.done = w.plan.data.length + 1 ∧ j = w.number + 1

/-- The number that `LATEST` names or is about to name. -/
def Named (s : Sys β) (j : ℕ) : Prop :=
  latestNumber s.root = some j ∨ ∃ w ∈ s.writer, w.Publishes j

structure Writer.Ok (s : Root β) (w : Writer β) : Prop where
  orderly : Orderly w.plan
  number : w.done ≤ w.plan.data.length + 1 → (latestNumber s).getD 0 = w.number
  spares : w.done ≤ w.plan.data.length → Spares (publishedPaths s) w.plan
  completes : w.done = 0 → Completes (publishedPaths s) w.plan
  -- with the rest of its operations the files of the next manifest are there
  files : 0 < w.done → w.done ≤ w.plan.data.length → ∀ m ∈ w.plan.next, ∀ p ∈ referencedPaths m,
    (actAll s (w.plan.data.drop w.done) p).isSome = true

/-- A collector that removes neither a manifest nor a file of it. -/
def Gc.Leaves (s : Root β) (j : ℕ) : Gc → Prop
  | .reading toRead older referenced => j ∉ older ∧
      (j ∈ toRead ∨ ∀ m, manifestAt s j = some m → ∀ p ∈ referencedPaths m, p ∈ referenced)
  | .removing pending => .manifest j ∉ pending ∧
      ∀ m, manifestAt s j = some m → ∀ p ∈ referencedPaths m, p ∉ pending

def Gc.pending : Gc → List Path
  | .reading .. => []
  | .removing pending => pending

structure Inv (s : Sys β) : Prop where
  recorded : ∀ p, (s.root p).isSome = true → p ∈ s.paths
  above : ∀ k, (s.root (.manifest k)).isSome = true → k ≤ (latestNumber s.root).getD 0 + 1
  sound : ∀ j, Named s j → Sound s.root j
  writer : ∀ w ∈ s.writer, w.Ok s.root
  quiet : ∀ g ∈ s.gc, ∀ w ∈ s.writer, w.Quiet
  leaves : ∀ g ∈ s.gc, ∀ j, Named s j → g.Leaves s.root j
  latest : ∀ g ∈ s.gc, .latest ∉ g.pending

lemma inv_start : Inv (start : Sys β) where
  recorded _ h := by cases h
  above _ h := by cases h
  sound _ h := by
    rcases h with h | ⟨w, hw, -⟩
    · cases h
    · cases hw
  writer _ h := by cases h
  quiet _ h := by cases h
  leaves _ h := by cases h
  latest _ h := by cases h

section Congr

variable {s s' : Root β}

lemma publishedPaths_congr (hl : latestNumber s' = latestNumber s)
    (hm : ∀ n, latestNumber s = some n → manifestAt s' n = manifestAt s n) :
    publishedPaths s' = publishedPaths s := by
  unfold publishedPaths
  rw [hl]
  cases hn : latestNumber s with
  | none => rfl
  | some n => rw [Option.bind_some, Option.bind_some, hm n hn]

lemma Sound.congr {j : ℕ} (h : Sound s j) (hm : manifestAt s' j = manifestAt s j)
    (hf : ∀ m, manifestAt s j = some m → ∀ p ∈ referencedPaths m, (s p).isSome = true →
      (s' p).isSome = true) : Sound s' j := by
  obtain ⟨m, hman, hplaced, hfiles⟩ := h
  exact ⟨m, hm.trans hman, hplaced, fun p hp => hf m hman p hp (hfiles p hp)⟩

lemma Gc.Leaves.congr {g : Gc} {j : ℕ} (h : g.Leaves s j) (hm : manifestAt s' j = manifestAt s j) :
    g.Leaves s' j := by
  cases g with
  | reading toRead older referenced => exact ⟨h.1, h.2.imp_right fun h m hman => h m (hm ▸ hman)⟩
  | removing pending => exact ⟨h.1, fun m hman => h.2 m (hm ▸ hman)⟩

/-- An operation on data leaves the manifests. -/
lemma manifests_act {op : Op Path (File β)} (h : IsData op.target) :
    latestNumber (act s op) = latestNumber s ∧ ∀ n, manifestAt (act s op) n = manifestAt s n :=
  ⟨latestNumber_congr (act_of_ne h.ne_latest),
    fun n => manifestAt_congr (act_of_ne (h.ne_manifest n))⟩

lemma isSome_manifest {j : ℕ} {m : Manifest} (h : manifestAt s j = some m) :
    (s (.manifest j)).isSome = true := by
  unfold manifestAt at h
  split at h
  · rename_i hs
    rw [hs]
    rfl
  · cases h

end Congr

section Steps

variable {s s' : Sys β} {w : Writer β}

@[simp] lemma advance_root (s : Sys β) (w : Writer β) (op : Op Path (File β)) :
    (advance s w op).root = act s.root op := rfl
@[simp] lemma advance_writer (s : Sys β) (w : Writer β) (op : Op Path (File β)) :
    (advance s w op).writer = some { w with done := w.done + 1 } := rfl

lemma Inv.placed (h : Inv s) : ∀ v ∈ view s.root, Placed v.manifest := by
  intro v hv
  obtain ⟨hl, hm, -⟩ := view_eq_some.mp hv
  obtain ⟨m, hman, hplaced, -⟩ := h.sound v.number (.inl hl)
  rw [Option.some.inj (hm.symm.trans hman)]
  exact hplaced

lemma Inv.published (h : Inv s) : ∀ p ∈ publishedPaths s.root, (s.root p).isSome = true := by
  intro p hp
  unfold publishedPaths at hp
  cases hn : latestNumber s.root with
  | none => simp [hn] at hp
  | some n =>
    obtain ⟨m, hman, -, hfiles⟩ := h.sound n (.inl hn)
    rw [hn, Option.bind_some, hman, Option.elim_some] at hp
    exact hfiles p hp

lemma inv_startCommand {resolve : View β → Fetched → HistoryRun} {c : Command β} (h : Inv s)
    (hc : Careful s (.start c)) (hs : startCommand resolve s c = some s') : Inv s' := by
  unfold startCommand at hs
  split at hs
  · rename_i hstart
    cases hs
    obtain ⟨hcompletes, hspares⟩ := completes_planOf resolve h.placed hstart.2 hc
    have hnamed : ∀ j, Named { s with writer := some ⟨(latestNumber s.root).getD 0,
        planOf resolve (view s.root) c, 0⟩ } j → Named s j := by
      rintro j (hj | ⟨w, ⟨⟩, -, hdone, -⟩)
      · exact .inl hj
      · cases hdone
    refine ⟨h.recorded, h.above, fun j hj => h.sound j (hnamed j hj), ?_, ?_,
      fun g hg j hj => h.leaves g hg j (hnamed j hj), h.latest⟩
    · rintro w ⟨⟩
      exact ⟨orderly_planOf resolve h.placed c, fun _ => rfl, fun _ => hspares, fun _ => hcompletes,
        fun h0 => (lt_irrefl _ h0).elim⟩
    · rintro g - w ⟨⟩
      exact .inl rfl
  · cases hs

/-- Without the command. -/
lemma inv_kill (h : Inv s) : Inv { s with writer := none } := by
  have hnamed : ∀ j, Named { s with writer := none } j → Named s j := by
    rintro j (hj | ⟨w, ⟨⟩, -⟩)
    exact .inl hj
  refine ⟨h.recorded, h.above, fun j hj => h.sound j (hnamed j hj), ?_, ?_,
    fun g hg j hj => h.leaves g hg j (hnamed j hj), h.latest⟩
  · rintro w ⟨⟩
  · rintro g - w ⟨⟩

/-- Without the collector. -/
lemma inv_killGc (h : Inv s) : Inv { s with gc := none } := by
  refine ⟨h.recorded, h.above, h.sound, h.writer, ?_, ?_, ?_⟩ <;> rintro g ⟨⟩

/-- What a command does next: a file, its manifest, or `LATEST`. -/
lemma next_cases {op : Op Path (File β)} (h : w.next = some op) :
    (w.done < w.plan.data.length ∧ w.plan.data[w.done]? = some op) ∨ ∃ m, w.plan.next = some m ∧
      ((w.done = w.plan.data.length ∧ op = .write (.manifest (w.number + 1)) (.manifest m)) ∨
        (w.done = w.plan.data.length + 1 ∧ op = .write .latest (.number (w.number + 1)))) := by
  unfold Writer.next Plan.ops at h
  by_cases hlt : w.done < w.plan.data.length
  · rw [List.getElem?_append_left hlt] at h
    exact .inl ⟨hlt, h⟩
  · right
    rw [List.getElem?_append_right (by omega)] at h
    cases hn : w.plan.next with
    | none => simp [hn] at h
    | some m =>
      rw [hn, Option.elim_some, publish] at h
      refine ⟨m, rfl, ?_⟩
      obtain hk | hk | hk : w.done - w.plan.data.length = 0 ∨ w.done - w.plan.data.length = 1 ∨
          2 ≤ w.done - w.plan.data.length := by omega
      · rw [hk] at h
        exact .inl ⟨by omega, (Option.some.inj h).symm⟩
      · rw [hk] at h
        exact .inr ⟨by omega, (Option.some.inj h).symm⟩
      · rw [List.getElem?_eq_none (by simpa using hk)] at h
        cases h

lemma recorded_act (h : Inv s) (op : Op Path (File β)) (p : Path)
    (hp : (act s.root op p).isSome = true) : p ∈ op.target :: s.paths := by
  by_cases ht : op.target = p
  · rw [ht]
    exact List.mem_cons_self
  · rw [act_of_ne ht] at hp
    exact List.mem_cons_of_mem _ (h.recorded p hp)

/-- After an operation while no collector runs. -/
lemma inv_advance (h : Inv s) (hgc : s.gc = none) (op : Op Path (File β))
    (habove : ∀ k, (act s.root op (.manifest k)).isSome = true →
      k ≤ (latestNumber (act s.root op)).getD 0 + 1)
    (hsound : ∀ j, Named (advance s w op) j → Sound (act s.root op) j)
    (hok : Writer.Ok (act s.root op) { w with done := w.done + 1 }) : Inv (advance s w op) := by
  have hno : ∀ g, g ∉ (advance s w op).gc := by
    intro g hg
    have hg' : g ∈ s.gc := hg
    rw [hgc] at hg'
    cases hg'
  refine ⟨recorded_act h op, habove, hsound, ?_, fun g hg => (hno g hg).elim,
    fun g hg => (hno g hg).elim, fun g hg => (hno g hg).elim⟩
  rintro w' ⟨⟩
  exact hok

/-- The command has written a file. -/
lemma inv_file (h : Inv s) (hw : w ∈ s.writer) (hgc : s.gc = none) {op : Op Path (File β)}
    (hlt : w.done < w.plan.data.length) (hop : w.plan.data[w.done]? = some op) :
    Inv (advance s w op) := by
  have hok := h.writer w hw
  have hmem : op ∈ w.plan.data := List.mem_of_getElem? hop
  obtain ⟨hlatest, hmanifest⟩ := manifests_act (s := s.root) (hok.orderly.data op hmem)
  have hpub : publishedPaths (act s.root op) = publishedPaths s.root :=
    publishedPaths_congr hlatest fun n _ => hmanifest n
  have hdrop : w.plan.data.drop w.done = op :: w.plan.data.drop (w.done + 1) := by
    rw [List.drop_eq_getElem_cons hlt]
    rw [List.getElem?_eq_getElem hlt] at hop
    rw [Option.some.inj hop]
  refine inv_advance h hgc _ (fun k hk => ?_) ?_ ?_
  · rw [hlatest]
    rw [act_of_ne ((hok.orderly.data op hmem).ne_manifest k)] at hk
    exact h.above k hk
  · rintro j (hj | ⟨w', ⟨⟩, -, hdone, -⟩)
    · have hj' : latestNumber s.root = some j := hlatest ▸ hj
      refine (h.sound j (.inl hj')).congr (hmanifest j) fun m hm p hp hsome => ?_
      have hin : p ∈ publishedPaths s.root := by
        rw [publishedPaths, hj', Option.bind_some, hm, Option.elim_some]
        exact hp
      rcases hok.spares hlt.le op hmem with hwrite | hne
      · exact isSome_act_write hwrite (.inl hsome)
      · rw [act_of_ne fun ht => hne (ht ▸ hin)]
        exact hsome
    · simp only at hdone
      omega
  · refine ⟨hok.orderly, fun _ => ?_, fun _ => ?_, fun h0 => (Nat.succ_ne_zero _ h0).elim,
      fun _ _ m hm p hp => ?_⟩
    · rw [hlatest]
      exact hok.number (by omega)
    · rw [hpub]
      exact hok.spares hlt.le
    · -- the rest of the operations from here is the rest from before
      have hrest : (actAll s.root (w.plan.data.drop w.done) p).isSome = true := by
        rcases Nat.eq_zero_or_pos w.done with h0 | h0
        · rw [h0, List.drop_zero]
          exact hok.completes h0 s.root h.published m hm p hp
        · exact hok.files h0 hlt.le m hm p hp
      rw [hdrop, actAll_cons] at hrest
      exact hrest

/-- The command has written its manifest. -/
lemma inv_manifest (h : Inv s) (hw : w ∈ s.writer) (hgc : s.gc = none) {m : Manifest}
    (hn : w.plan.next = some m) (hd : w.done = w.plan.data.length) :
    Inv (advance s w (.write (.manifest (w.number + 1)) (.manifest m))) := by
  have hok := h.writer w hw
  have hnum : (latestNumber s.root).getD 0 = w.number := hok.number (by omega)
  let op : Op Path (File β) := .write (.manifest (w.number + 1)) (.manifest m)
  have hframe : ∀ {p}, IsData p → act s.root op p = s.root p := fun hp =>
    act_of_ne (hp.ne_manifest _).symm
  have hlatest : latestNumber (act s.root op) = latestNumber s.root :=
    latestNumber_congr (act_of_ne Layout.Path.noConfusion)
  have hold : ∀ n, n ≠ w.number + 1 → manifestAt (act s.root op) n =
      manifestAt s.root n := fun n hne =>
    manifestAt_congr (act_of_ne fun ht => hne (by injection ht with ht; exact ht.symm))
  have hnew : manifestAt (act s.root op) (w.number + 1) = some m := by
    simp [op, manifestAt, act]
  -- the files of the manifest are there by now
  have hfiles : ∀ p ∈ referencedPaths m, (s.root p).isSome = true := by
    intro p hp
    rcases Nat.eq_zero_or_pos w.done with h0 | h0
    · have hnil : w.plan.data = [] := List.eq_nil_of_length_eq_zero (by omega)
      have hall := hok.completes h0 s.root h.published m hn p hp
      rwa [hnil] at hall
    · have hall := hok.files h0 hd.le m hn p hp
      rwa [hd, List.drop_length] at hall
  refine inv_advance h hgc op (fun k hk => ?_) ?_ ?_
  · rw [hlatest]
    by_cases he : k = w.number + 1
    · omega
    · rw [act_of_ne fun ht => he (by injection ht with ht; exact ht.symm)] at hk
      exact h.above k hk
  · rintro j (hj | ⟨w', ⟨⟩, -, -, hj⟩)
    · have hj' : latestNumber s.root = some j := hlatest ▸ hj
      have hne : j ≠ w.number + 1 := by
        rw [hj', Option.getD_some] at hnum
        omega
      obtain ⟨m', hm', hplaced, -⟩ := h.sound j (.inl hj')
      refine (h.sound j (.inl hj')).congr (hold j hne) fun m'' hm'' p hp hsome => ?_
      rw [Option.some.inj (hm''.symm.trans hm')] at hp
      rw [hframe (hplaced.lies hp).isData]
      exact hsome
    · have hplaced := hok.orderly.placed m hn
      rw [hj]
      refine ⟨m, hnew, hplaced, fun p hp => ?_⟩
      rw [hframe (hplaced.lies hp).isData]
      exact hfiles p hp
  · refine ⟨hok.orderly, fun _ => ?_, fun hle => ?_, fun h0 => (Nat.succ_ne_zero _ h0).elim,
      fun _ hle => ?_⟩
    · rw [hlatest]
      exact hnum
    · simp only at hle
      omega
    · simp only at hle
      omega

/-- The command has written `LATEST`. -/
lemma inv_latest (h : Inv s) (hw : w ∈ s.writer) {m : Manifest} (hn : w.plan.next = some m)
    (hd : w.done = w.plan.data.length + 1) :
    Inv (advance s w (.write .latest (.number (w.number + 1)))) := by
  have hok := h.writer w hw
  have hnum : (latestNumber s.root).getD 0 = w.number := hok.number hd.le
  let op : Op Path (File β) := .write .latest (.number (w.number + 1))
  have hframe : ∀ {p}, p ≠ .latest → act s.root op p = s.root p := fun hp => act_of_ne hp.symm
  have hlatest : latestNumber (act s.root op) = some (w.number + 1) := by
    simp [op, latestNumber, act]
  have hman : ∀ n, manifestAt (act s.root op) n = manifestAt s.root n := fun n =>
    manifestAt_congr (hframe Layout.Path.noConfusion)
  -- the number was about to be named
  have hnamed : ∀ j, Named (advance s w op) j → Named s j := by
    rintro j (hj | ⟨w', ⟨⟩, -, hdone, -⟩)
    · rw [advance_root, hlatest] at hj
      exact .inr ⟨w, hw, by rw [hn]; rfl, hd, (Option.some.inj hj).symm⟩
    · simp only at hdone
      omega
  refine ⟨recorded_act h op, fun k hk => ?_, fun j hj => ?_, ?_, ?_, fun g hg j hj => ?_,
    h.latest⟩
  · have hne : Path.manifest k ≠ .latest := Layout.Path.noConfusion
    have hle := h.above k (hframe hne ▸ hk)
    rw [advance_root, hlatest, Option.getD_some]
    omega
  · obtain ⟨m', hm', hplaced, -⟩ := h.sound j (hnamed j hj)
    refine (h.sound j (hnamed j hj)).congr (hman j) fun m'' hm'' p hp hsome => ?_
    rw [Option.some.inj (hm''.symm.trans hm')] at hp
    exact (congrArg Option.isSome (hframe (hplaced.lies hp).isData.ne_latest)).trans hsome
  · rintro w' ⟨⟩
    refine ⟨hok.orderly, fun hle => ?_, fun hle => ?_, fun h0 => (Nat.succ_ne_zero _ h0).elim,
      fun _ hle => ?_⟩ <;>
    · simp only at hle
      omega
  · rintro g hg w' ⟨⟩
    exact .inr (by simp only; omega)
  · exact (h.leaves g hg j (hnamed j hj)).congr (hman j)

lemma inv_proceed (h : Inv s) (hc : Careful s .proceed) (hw : w ∈ s.writer) :
    Inv (proceed s w) := by
  unfold proceed
  split
  · rename_i op hop
    have hgc : op.target ≠ .latest → s.gc = none := by
      intro hne
      rcases hc with hc | hc
      · exact Option.isNone_iff_eq_none.mp hc
      · exact (hne (hc w hw op hop)).elim
    rcases next_cases hop with ⟨hlt, hop⟩ | ⟨m, hn, ⟨hd, rfl⟩ | ⟨hd, rfl⟩⟩
    · have hdata := (h.writer w hw).orderly.data op (List.mem_of_getElem? hop)
      exact inv_file h hw (hgc hdata.ne_latest) hlt hop
    · exact inv_manifest h hw (hgc Layout.Path.noConfusion) hn hd
    · exact inv_latest h hw hn hd
  · exact inv_kill h

/-! ### The collector -/

lemma mem_manifestNumbers {n : ℕ} : n ∈ manifestNumbers s ↔
    .manifest n ∈ s.paths ∧ (s.root (.manifest n)).isSome = true := by
  have hnum : n ∈ s.paths.filterMap manifestNumber ↔ .manifest n ∈ s.paths := by
    rw [List.mem_filterMap]
    constructor
    · rintro ⟨p, hp, hn⟩
      cases p <;> cases hn
      exact hp
    · exact fun h => ⟨_, h, rfl⟩
  rw [manifestNumbers, List.mem_insertionSort, List.mem_dedup, List.mem_filter, hnum]

lemma sorted_manifestNumbers (s : Sys β) : (manifestNumbers s).Pairwise (· < ·) := by
  have hle : (manifestNumbers s).Pairwise (· ≤ ·) := List.pairwise_insertionSort _ _
  have hnodup : (manifestNumbers s).Nodup :=
    (List.perm_insertionSort _ _).nodup_iff.mpr (List.nodup_dedup _)
  exact (hle.and hnodup).imp fun h => lt_of_le_of_ne h.1 h.2

/-- **A number is kept if the numbers above it are too few to crowd it out.** -/
lemma mem_keepNumbers {l : List ℕ} (hl : l.Pairwise (· < ·)) {j keep : ℕ} (hj : j ∈ l)
    (hlt : ∀ x ∈ l, x < j + keep) : j ∈ keepNumbers l keep := by
  unfold keepNumbers
  by_contra hnot
  rw [← List.take_append_drop (l.length - keep) l, List.mem_append] at hj
  have htake : j ∈ l.take (l.length - keep) := hj.resolve_right hnot
  have hlen : keep ≤ l.length := by
    by_contra hk
    rw [Nat.sub_eq_zero_of_le (by omega), List.take_zero] at htake
    cases htake
  have hsplit : (l.take (l.length - keep) ++ l.drop (l.length - keep)).Pairwise (· < ·) := by
    rw [List.take_append_drop]
    exact hl
  obtain ⟨-, hdrop, hcross⟩ := List.pairwise_append.mp hsplit
  -- the kept numbers are different, and all between the number and its bound
  have hsub : (l.drop (l.length - keep)).toFinset ⊆ Finset.Ioo j (j + keep) := by
    intro x hx
    rw [List.mem_toFinset] at hx
    exact Finset.mem_Ioo.mpr ⟨hcross j htake x hx, hlt x (List.mem_of_mem_drop hx)⟩
  have hcard := Finset.card_le_card hsub
  rw [List.toFinset_card_of_nodup (hdrop.imp fun h => ne_of_lt h), List.length_drop, Nat.card_Ioo]
    at hcard
  have hpos : 0 < keep := by
    by_contra hk
    have hself := hlt j (List.mem_of_mem_take htake)
    omega
  omega

/-- What is named is among the manifests the collector keeps. -/
lemma named_kept (h : Inv s) {keep : ℕ} (hc : Careful s (.gc keep)) {j : ℕ} (hj : Named s j) :
    j ∈ keepNumbers (manifestNumbers s) keep := by
  obtain ⟨m, hm, -⟩ := h.sound j hj
  have hin : j ∈ manifestNumbers s :=
    mem_manifestNumbers.mpr ⟨h.recorded _ (isSome_manifest hm), isSome_manifest hm⟩
  refine mem_keepNumbers (sorted_manifestNumbers s) hin fun x hx => ?_
  have habove := h.above x (mem_manifestNumbers.mp hx).2
  rcases hj with hj | ⟨w, hw, -, hd, rfl⟩
  · rw [hj, Option.getD_some] at habove
    rcases hc.2 with hk | ⟨hk, hall⟩
    · omega
    · have hle := hall x hx
      rw [hj, Option.getD_some] at hle
      omega
  · have hnum := (h.writer w hw).number hd.le
    have hpos : 1 ≤ keep := hc.2.elim (fun hk => by omega) fun hk => hk.1
    omega

lemma inv_startGc (h : Inv s) {keep : ℕ} (hc : Careful s (.gc keep)) : Inv (startGc s keep) := by
  unfold startGc
  simp only
  split
  · exact h
  · refine ⟨h.recorded, h.above, h.sound, h.writer, ?_, ?_, ?_⟩
    · rintro g ⟨⟩ w hw
      exact hc.1 w hw
    · rintro g ⟨⟩ j hj
      have hkept := named_kept h hc hj
      refine ⟨fun hold => ?_, .inl hkept⟩
      exact of_decide_eq_true (List.mem_filter.mp hold).2 hkept
    · rintro g ⟨⟩ hin
      cases hin

lemma inv_readManifest (h : Inv s) {toRead older : List ℕ} {referenced : List Path}
    (hg : .reading toRead older referenced ∈ s.gc) (n : ℕ) :
    Inv (readManifest s toRead older referenced n) := by
  unfold readManifest
  cases hm : manifestAt s.root n with
  | none => exact inv_killGc h
  | some m =>
    refine ⟨h.recorded, h.above, h.sound, h.writer, ?_, ?_, ?_⟩
    · rintro g - w hw
      exact h.quiet _ hg w hw
    · rintro g ⟨⟩ j hj
      obtain ⟨hold, hread⟩ := h.leaves _ hg j hj
      refine ⟨hold, ?_⟩
      by_cases he : j = n
      · right
        intro m' hm' p hp
        subst he
        rw [Option.some.inj (hm'.symm.trans hm)] at hp
        exact List.mem_append_right _ hp
      · refine hread.imp (fun hin => (List.mem_erase_of_ne he).mpr hin) fun hin m' hm' p hp => ?_
        exact List.mem_append_left _ (hin m' hm' p hp)
    · rintro g ⟨⟩ hin
      cases hin

lemma mem_unreferenced {referenced : List Path} {p : Path} (hp : p ∈ unreferenced s referenced) :
    IsData p ∧ p ∉ referenced := by
  obtain ⟨hall, hnot⟩ := List.mem_filter.mp hp
  exact ⟨(of_decide_eq_true (List.mem_filter.mp hall).2).1, of_decide_eq_true hnot⟩

lemma inv_list (h : Inv s) {older : List ℕ} {referenced : List Path}
    (hg : .reading [] older referenced ∈ s.gc) {files : List Path}
    (hf : files.Perm (unreferenced s referenced)) :
    Inv { s with gc := some (.removing (files ++ older.map .manifest)) } := by
  have hfile : ∀ p ∈ files, IsData p ∧ p ∉ referenced := fun p hp =>
    mem_unreferenced (hf.mem_iff.mp hp)
  refine ⟨h.recorded, h.above, h.sound, h.writer, ?_, ?_, ?_⟩
  · rintro g - w hw
    exact h.quiet _ hg w hw
  · rintro g ⟨⟩ j hj
    obtain ⟨hold, hread⟩ := h.leaves _ hg j hj
    have href := hread.resolve_left List.not_mem_nil
    refine ⟨fun hin => ?_, fun m hm p hp hin => ?_⟩
    · rcases List.mem_append.mp hin with hin | hin
      · exact (hfile _ hin).1
      · obtain ⟨k, hk, he⟩ := List.mem_map.mp hin
        cases he
        exact hold hk
    · rcases List.mem_append.mp hin with hin | hin
      · exact (hfile p hin).2 (href m hm p hp)
      · obtain ⟨k, -, rfl⟩ := List.mem_map.mp hin
        obtain ⟨m', hm', hplaced, -⟩ := h.sound j hj
        rw [Option.some.inj (hm.symm.trans hm')] at hp
        exact (hplaced.lies hp).isData
  · rintro g ⟨⟩ hin
    rcases List.mem_append.mp hin with hin | hin
    · exact (hfile _ hin).1
    · obtain ⟨k, -, he⟩ := List.mem_map.mp hin
      cases he

/-- The collector has removed a file that is not named. -/
lemma inv_removeFile (h : Inv s) {p : Path} {pending : List Path}
    (hg : .removing (p :: pending) ∈ s.gc) : Inv (removeFile s p pending) := by
  unfold removeFile
  split
  · have hl : p ≠ .latest := fun he => h.latest _ hg (he ▸ List.mem_cons_self)
    have hframe : ∀ {q}, p ≠ q → act s.root (.remove p) q = s.root q := fun hne => act_of_ne hne
    have hlatest : latestNumber (act s.root (.remove p)) = latestNumber s.root :=
      latestNumber_congr (hframe hl)
    have hnamed : ∀ j, Named { s with
        root := act s.root (.remove p), gc := some (.removing pending) } j →
          Named s j := fun j hj =>
      hj.imp_left fun hj => hlatest ▸ hj
    have hman : ∀ j, Named s j → manifestAt (act s.root (.remove p)) j = manifestAt s.root j :=
      fun j hj => manifestAt_congr
        (hframe fun he => (h.leaves _ hg j hj).1 (he ▸ List.mem_cons_self))
    have hpub : publishedPaths (act s.root (.remove p)) = publishedPaths s.root :=
      publishedPaths_congr hlatest fun n hn => hman n (.inl hn)
    have hsome : ∀ {q}, (act s.root (.remove p) q).isSome = true → (s.root q).isSome = true := by
      intro q hq
      by_cases he : p = q
      · subst he
        simp [act] at hq
      · rwa [hframe he] at hq
    refine ⟨fun q hq => h.recorded q (hsome hq), fun k hk => ?_, fun j hj => ?_, fun w hw => ?_, ?_,
      ?_, ?_⟩
    · rw [hlatest]
      exact h.above k (hsome hk)
    · have hj' := hnamed j hj
      refine (h.sound j hj').congr (hman j hj') fun m hm q hq hs => ?_
      have hne : p ≠ q := fun he => (h.leaves _ hg j hj').2 m hm q hq (he ▸ List.mem_cons_self)
      exact (congrArg Option.isSome (hframe hne)).trans hs
    · have hok := h.writer w hw
      refine ⟨hok.orderly, fun hle => ?_, fun hle => ?_, fun h0 => ?_, fun h0 hle => ?_⟩
      · rw [hlatest]
        exact hok.number hle
      · rw [hpub]
        exact hok.spares hle
      · rw [hpub]
        exact hok.completes h0
      · -- no command is between its first file and its manifest
        rcases h.quiet _ hg w hw with hq | hq <;> omega
    · rintro g - w hw
      exact h.quiet _ hg w hw
    · rintro g ⟨⟩ j hj
      have hj' := hnamed j hj
      obtain ⟨h1, h2⟩ := h.leaves _ hg j hj'
      refine ⟨fun hin => h1 (List.mem_cons_of_mem _ hin), fun m hm q hq hin => ?_⟩
      rw [hman j hj'] at hm
      exact h2 m hm q hq (List.mem_cons_of_mem _ hin)
    · rintro g ⟨⟩ hin
      exact h.latest _ hg (List.mem_cons_of_mem _ hin)
  · exact inv_killGc h

/-- **One event.** -/
theorem inv_step {resolve : View β → Fetched → HistoryRun} {e : Event β} (h : Inv s)
    (hc : Careful s e) (hs : step resolve s e = some s') : Inv s' := by
  cases e with
  | start c => exact inv_startCommand h hc hs
  | proceed =>
    obtain ⟨w, hw, rfl⟩ := Option.map_eq_some_iff.mp hs
    exact inv_proceed h hc hw
  | kill =>
    cases hs
    exact inv_kill h
  | gc keep =>
    simp only [step] at hs
    split at hs
    · cases hs
    · cases hs
      exact inv_startGc h hc
  | read n =>
    simp only [step] at hs
    split at hs
    · rename_i hg
      split at hs
      · cases hs
        exact inv_readManifest h hg n
      · cases hs
    · cases hs
  | list files =>
    simp only [step] at hs
    split at hs
    · rename_i hg
      split at hs
      · rename_i hf
        cases hs
        exact inv_list h hg (List.isPerm_iff.mp hf)
      · cases hs
    · cases hs
  | remove =>
    simp only [step] at hs
    split at hs
    · cases hs
      exact inv_killGc h
    · rename_i hg
      cases hs
      exact inv_removeFile h hg
    · cases hs
  | killGc =>
    cases hs
    exact inv_killGc h

end Steps

/-- **Garbage collection is safe.** In every run whose events are careful, whatever commands and
collectors do beside each other and wherever they are killed, the manifest that `LATEST` names is
there and so is every file it references. -/
theorem gc_safe {resolve : View β → Fetched → HistoryRun} {es : List (Event β)} {s : Sys β}
    (hc : Along (step resolve) Careful start es) (hs : play (step resolve) start es = some s) :
    Whole s.root := by
  have hinv : Inv s := play_keeps (fun _ _ _ => inv_step) inv_start hc hs
  intro n hn
  obtain ⟨m, hm, -, hfiles⟩ := hinv.sound n (.inl hn)
  exact ⟨m, hm, hfiles⟩

/-! ### Runs of a collector -/

def buildOnce : List (Event ℕ) :=
  [.start (.build "g0001" none none [(.byid .node 0, 0)]), .proceed, .proceed, .proceed, .proceed]

def proceeds (k : ℕ) : List (Event ℕ) := List.replicate k .proceed

def removes (k : ℕ) : List (Event ℕ) := List.replicate k .remove

/-- The files that compaction has made when it comes to its manifest. -/
def compacted : List Path :=
  [.table "g0002" (.byid .node 0), .table "g0002" (.rowgroups .node),
    .table "g0002" (.rowgroups .way), .table "g0002" (.rowgroups .relation)]

/-- Compaction is killed between its manifest and `LATEST`; a collector that keeps two manifests
comes after it while the next compaction waits, and that one completes. -/
def keepTwo : List (Event ℕ) :=
  buildOnce ++ .start (relink none) :: proceeds 6 ++ [.kill, .gc 2, .read 2, .start (relink none),
    .read 1, .list [], .remove] ++ proceeds 8

theorem gc_safe_keepTwo : ∃ s, play (step resolveNothing) start keepTwo = some s ∧
    latestNumber s.root = some 2 ∧ Whole s.root := by
  have hs : (play (step resolveNothing) start keepTwo).any
      (fun s => decide (latestNumber s.root = some 2)) = true := by decide
  obtain ⟨s, hs, hl⟩ := (Option.any_eq_true _ _).mp hs
  exact ⟨s, hs, of_decide_eq_true hl, gc_safe (by decide) hs⟩

/-- The same with one manifest kept: the one that `LATEST` names is older. -/
def keepOne : List (Event ℕ) :=
  buildOnce ++ .start (relink none) :: proceeds 6 ++ [.kill, .gc 1, .read 2,
    .list [.table "g0001" (.byid .node 0)]] ++ removes 3

/-- A collector that comes when compaction has written its files but not its manifest. -/
def between : List (Event ℕ) :=
  buildOnce ++ .start (relink none) :: proceeds 5 ++
    [.gc 2, .read 1, .list compacted] ++ removes 5 ++ proceeds 3

/-- The events end with a root that is not whole. -/
def EndsBroken (es : List (Event ℕ)) : Prop :=
  ∃ s, play (step resolveNothing) start es = some s ∧ s.writer.isNone = true ∧ s.gc.isNone = true ∧
    ¬ Whole s.root

lemma endsBroken_of_any {es : List (Event ℕ)}
    (h : (play (step resolveNothing) start es).any (fun s =>
    decide (s.writer.isNone = true ∧ s.gc.isNone = true ∧ ¬ Whole s.root)) = true) :
      EndsBroken es := by
  obtain ⟨s, hs, hb⟩ := (Option.any_eq_true _ _).mp h
  exact ⟨s, hs, of_decide_eq_true hb⟩

/-- When all have ended, the manifest that `LATEST` names is gone, or files of it are. -/
theorem gc_breaks_root : EndsBroken keepOne ∧ EndsBroken between :=
  ⟨endsBroken_of_any (by decide), endsBroken_of_any (by decide)⟩

end OsmParquet.GarbageCollect
