import OsmParquet.Elements
import OsmParquet.Snapshots

/-!
The actions of a query that compares two times.

The program runs twice, and every `out` adds its elements to those of the run. What was printed in
one run or the other becomes a list of actions, one for each element: it was created, deleted or
modified. An element that several `out` printed is there several times, and of the first run the
last of them is compared with the first of the second run. Where an element is printed in two
different ways, it counts as modified though nothing has changed.
-/

namespace OsmParquet.DiffActions

open OsmParquet.KeyedList OsmParquet.Rows OsmParquet.HistoryTiers OsmParquet.Timeline
open OsmParquet.Snapshots OsmParquet.Elements

variable {F : Type}

/-! ### The runs -/

/-- What a run of the program has printed, and the versions of it. -/
structure PassResult (F : Type) where
  elements : List (Element F)
  versions : List (Key × Option ℤ)

def PassResult.version (pass : PassResult F) (k : Key) : Option ℤ :=
  (lookup Prod.fst k pass.versions.reverse).bind Prod.snd

/-- An `out` of a run that is compared. A count is printed as the ids that it counts. -/
def executeOut (host : Host F) (found : Resolved F) (set : List (OutRow F)) (out : Out F)
    (pass : PassResult F) : PassResult F :=
  let effective := if out.count then { out with count := false, verbosity := .ids } else out
  let (elements, versions) := buildElements host set effective found false
  ⟨pass.elements ++ elements, pass.versions ++ versions⟩

/-! ### The states outside of the query -/

/-- What is shown of a state that the query did not ask for. -/
structure RawState where
  id : ℤ
  version : Option ℤ
  timestamp : Option ℤ
  changeset : Option ℤ
  uid : Option ℤ
  user : Option String
  visible : Bool

def attrsOf : {t : Typ} → ByidCols t → Attrs
  | .node, c => NodeCols.attrs c
  | .way, c => WayCols.attrs c
  | .relation, c => RelationCols.attrs c

def rawState {t : Typ} (r : HistoryRow (ByidCols t)) : RawState where
  id := r.id
  version := r.version
  timestamp := r.timestamp
  changeset := r.cols.map fun c => (attrsOf c).changeset
  uid := r.cols.bind fun c => (attrsOf c).uid
  user := r.cols.map fun c => (attrsOf c).user
  visible := r.visible

/-- The types that have a history. -/
def historyType : ElType → Option Typ
  | .node => some .node
  | .way => some .way
  | .relation => some .relation
  | _ => none

instance decidableLeStateKey : DecidableLE StateKey :=
  let lt : DecidableLT (WithBot ℤ) := @WithBot.decidableLT ℤ _ Int.decLt
  @Prod.Lex.instDecidableRelOfDecidableEq _ _ _ _ lt _
    (@Prod.Lex.instDecidableRelOfDecidableEq _ _ _ _ _ _
      (@Prod.Lex.instDecidableRelOfDecidableEq _ _ _ _ lt _ Int.decLe))

/-- The state that is chosen. -/
def chosenState {α : Type} : List (HistoryRow α) → Option (HistoryRow α)
  | [] => none
  | r :: rows => some (rows.foldl (fun best x => if stateKey x ≤ stateKey best then best else x) r)

def rawStateRows (h : HistoryRoot) (typ : ElType) (ids : List ℤ) (t : ℤ) : List (ℤ × RawState) :=
  (historyType typ).elim [] fun T => ids.dedup.filterMap fun i =>
    (chosenState (byidCandidates h T t i)).map fun r => (i, rawState r)

def stubElement (host : Host F) (typ : ElType) (row : RawState) (showVisible : Bool) :
    Element F where
  type := typ
  id := row.id
  version := row.version
  timestamp := row.timestamp.map host.strftime
  changeset := row.changeset
  uid := row.uid
  user := row.user
  visible := if showVisible then some row.visible else none

/-! ### The actions -/

inductive ActionKind
  | create | modify | delete
  deriving DecidableEq, Repr

structure Action (F : Type) where
  kind : ActionKind
  type : ElType
  id : ℤ
  old : Option (Element F) := none
  new : Option (Element F) := none

def Action.key (x : Action F) : Key := (x.type, x.id)

/-- The order of tags does not count. -/
def sameTags : Option Tags → Option Tags → Bool
  | some a, some b => decide (a.Perm b)
  | none, none => true
  | _, _ => false

def sameElement [DecidableEq F] (a b : Element F) : Bool :=
  decide ({ a with tags := none } = { b with tags := none }) && sameTags a.tags b.tags

/-- The last element with a key. -/
def byKey (elements : List (Element F)) (k : Key) : Option (Element F) :=
  lookup Element.key k elements.reverse

/-- The elements whose key has not been seen. -/
def unseen (seen : List Key) : List (Element F) → List (Element F)
  | [] => []
  | el :: rest => if el.key ∈ seen then unseen seen rest else el :: unseen (el.key :: seen) rest

def keysOf (elements : List (Element F)) : List Key := elements.map Element.key

/-- The ids of a type that one run has and the other does not. -/
def onlyIn (typ : ElType) (elements others : List (Element F)) : List ℤ :=
  ((keysOf elements).filter fun k => k.1 = typ ∧ k ∉ keysOf others).map Prod.snd

def rawAt (h : HistoryRoot) (t : ℤ) (elements others : List (Element F)) (k : Key) :
    Option RawState :=
  (lookup Prod.fst k.2 (rawStateRows h k.1 (onlyIn k.1 elements others) t)).map Prod.snd

section Actions

variable [DecidableEq F] (host : Host F) (h : HistoryRoot) (a b : PassResult F) (ta tb : ℤ)
  (augmented : Bool)

def changed (k : Key) (old new : Element F) : Bool :=
  decide (a.version k ≠ b.version k) || !sameElement old new

/-- The action for an element of the second run. -/
def changeOf (el : Element F) : Option (Action F) :=
  match byKey a.elements el.key with
  | none =>
    match if augmented then rawAt h ta b.elements a.elements el.key else none with
    | some raw => some ⟨.modify, el.type, el.id, some (stubElement host el.type raw false), some el⟩
    | none => some ⟨.create, el.type, el.id, none, some el⟩
  | some old => if changed a b el.key old el then some ⟨.modify, el.type, el.id, some old,
    some el⟩ else none

/-- The action for an element of the first run. -/
def deleteOf (el : Element F) : Option (Action F) :=
  if el.key ∈ keysOf b.elements then none
  else
    let raw := if augmented then rawAt h tb a.elements b.elements el.key else none
    some ⟨.delete, el.type, el.id, some el, raw.map fun r => stubElement host el.type r true⟩

def buildDiffActions : List (Action F) :=
  (unseen [] b.elements).filterMap (changeOf host h a b ta augmented) ++
    (unseen [] a.elements).filterMap (deleteOf host h a b tb augmented)

end Actions

/-! ### What is expected -/

section Expected

variable [DecidableEq F]

/-- Something is known about an element at a time. -/
def RawExists (h : HistoryRoot) (t : ℤ) (k : Key) : Prop :=
  ∃ T, historyType k.1 = some T ∧ ∃ r, StateAt (byidCandidates h T t k.2) r

/-- What a run has printed of an element. -/
def printed (elements : List (Element F)) (k : Key) : List (Element F) :=
  elements.filter fun el => el.key = k

def SamePrinted (a b : PassResult F) (k : Key) : Prop :=
  a.version k = b.version k ∧
    List.Forall₂ (fun x y => sameElement x y = true) (printed a.elements k) (printed b.elements k)

/-- Every element has the action that its two states call for. -/
structure Classified (h : HistoryRoot) (a b : PassResult F) (ta : ℤ) (augmented : Bool)
    (actions : List (Action F)) : Prop where
  once : Distinct Action.key actions
  created : ∀ k ∈ keysOf b.elements, k ∉ keysOf a.elements →
    ¬ (augmented = true ∧ RawExists h ta k) → ∃ x ∈ actions, x.key = k ∧ x.kind = .create
  recreated : ∀ k ∈ keysOf b.elements, k ∉ keysOf a.elements → augmented = true → RawExists h ta k →
    ∃ x ∈ actions, x.key = k ∧ x.kind = .modify
  deleted : ∀ k ∈ keysOf a.elements, k ∉ keysOf b.elements → ∃ x ∈ actions, x.key = k ∧
    x.kind = .delete
  modified : ∀ k ∈ keysOf a.elements, k ∈ keysOf b.elements → a.version k ≠ b.version k →
    ∃ x ∈ actions, x.key = k ∧ x.kind = .modify
  unchanged : ∀ k ∈ keysOf a.elements, k ∈ keysOf b.elements → SamePrinted a b k →
    ∀ x ∈ actions, x.key ≠ k
  ordered : ∃ changes deletes, actions = changes ++ deletes ∧
    (changes.map Action.key).Sublist ((firstPerKey Element.key b.elements).map Element.key) ∧
    ∀ x ∈ deletes, x.kind = .delete ∧ x.key ∉ keysOf b.elements

/-- What is the same in both runs is printed in one way, from the first time to the last. -/
def PrintedAlike (a b : PassResult F) : Prop :=
  ∀ k ∈ keysOf a.elements, k ∈ keysOf b.elements → SamePrinted a b k →
    ∀ x y, (printed b.elements k).head? = some x → (printed b.elements k).getLast? = some y →
      sameElement x y = true

end Expected

/-! ### Lookups -/

section Lookups

lemma stateAt_chosenState {α : Type} {l : List (HistoryRow α)} {r : HistoryRow α}
    (hr : chosenState l = some r) : StateAt l r := by
  cases l with
  | nil => cases hr
  | cons x rows =>
    obtain rfl := Option.some.inj hr
    clear hr
    induction rows using List.reverseRecOn with
    | nil => exact ⟨List.mem_cons_self, by simp⟩
    | append_singleton rows y ih =>
      rw [List.foldl_append, List.foldl_cons, List.foldl_nil, ← List.cons_append]
      obtain ⟨hmem, hbest⟩ := ih
      split_ifs with hy
      · refine ⟨List.mem_append_left _ hmem, fun z hz => ?_⟩
        rcases List.mem_append.mp hz with hz | hz
        · exact hbest z hz
        · rwa [List.mem_singleton.mp hz]
      · refine ⟨by simp, fun z hz => ?_⟩
        rcases List.mem_append.mp hz with hz | hz
        · exact (hbest z hz).trans (le_of_not_ge hy)
        · rw [List.mem_singleton.mp hz]

lemma chosenState_isSome {α : Type} {l : List (HistoryRow α)} :
    (chosenState l).isSome = true ↔ ∃ r, StateAt l r := by
  constructor
  · intro hs
    obtain ⟨r, hr⟩ := Option.isSome_iff_exists.mp hs
    exact ⟨r, stateAt_chosenState hr⟩
  · rintro ⟨r, hr, -⟩
    cases l with
    | nil => cases hr
    | cons => rfl

/-- The lookup for all ids at once finds the state of every id that was asked for. -/
lemma rawAt_isSome {h : HistoryRoot} {t : ℤ} {elements others : List (Element F)} {k : Key}
    (hk : k ∈ keysOf elements) (ho : k ∉ keysOf others) :
    (rawAt h t elements others k).isSome = true ↔ RawExists h t k := by
  have hin : k.2 ∈ (onlyIn k.1 elements others).dedup :=
    List.mem_dedup.mpr (List.mem_map.mpr ⟨k, List.mem_filter.mpr ⟨hk, by simp [ho]⟩, rfl⟩)
  rw [rawAt, Option.isSome_map]
  unfold rawStateRows RawExists
  cases hT : historyType k.1 with
  | none => simp
  | some T =>
    rw [Option.elim_some, lookup_filterMap_of_mem _ hin, Option.isSome_map, chosenState_isSome]
    · simp
    · intro i row hrow
      obtain ⟨r, -, rfl⟩ := Option.map_eq_some_iff.mp hrow
      rfl

lemma unseen_eq (seen : List Key) (elements : List (Element F)) :
    unseen seen elements = without Element.key seen (firstPerKey Element.key elements) := by
  induction elements generalizing seen with
  | nil => rfl
  | cons el rest ih =>
    rw [unseen, firstPerKey, ih, ih]
    unfold without
    by_cases hk : el.key ∈ seen
    · rw [if_pos hk, List.filter_cons_of_neg (by simpa using hk), List.filter_filter]
      refine List.filter_congr fun x _ => ?_
      rw [Bool.eq_iff_iff]
      simp only [decide_eq_true_eq, Bool.and_eq_true, List.mem_singleton]
      exact ⟨fun hx => ⟨hx, fun he => hx (he ▸ hk)⟩, fun hx => hx.1⟩
    · rw [if_neg hk, List.filter_cons_of_pos (by simpa using hk), List.filter_filter]
      congr 1
      refine List.filter_congr fun x _ => ?_
      rw [Bool.eq_iff_iff]
      simp only [decide_eq_true_eq, Bool.and_eq_true, List.mem_cons, List.not_mem_nil,
        not_or, or_false]
      exact and_comm

lemma unseen_nil (elements : List (Element F)) :
    unseen [] elements = firstPerKey Element.key elements := by
  rw [unseen_eq]
  exact List.filter_eq_self.mpr (by simp)

lemma exists_first {elements : List (Element F)} {k : Key} (hk : k ∈ keysOf elements) :
    ∃ el ∈ firstPerKey Element.key elements, el.key = k ∧ (printed elements k).head? = some el := by
  obtain ⟨el, hel⟩ := Option.isSome_iff_exists.mp (lookup_isSome.mpr hk)
  obtain rfl := key_of_lookup hel
  exact ⟨el, mem_firstPerKey.mpr hel, rfl, by rw [printed, List.head?_filter]; exact hel⟩

lemma mem_keysOf_of_first {elements : List (Element F)} {el : Element F}
    (hel : el ∈ firstPerKey Element.key elements) : el.key ∈ keysOf elements :=
  List.mem_map_of_mem (mem_of_lookup (mem_firstPerKey.mp hel))

lemma byKey_eq_last (elements : List (Element F)) (k : Key) :
    byKey elements k = (printed elements k).getLast? := by
  rw [byKey, printed, ← List.head?_reverse, ← List.filter_reverse, List.head?_filter]
  rfl

lemma byKey_eq_none {elements : List (Element F)} {k : Key} :
    byKey elements k = none ↔ k ∉ keysOf elements := by
  rw [byKey, lookup_eq_none, List.map_reverse, List.mem_reverse]
  rfl

lemma exists_last {elements : List (Element F)} {k : Key} (hk : k ∈ keysOf elements) :
    ∃ el, byKey elements k = some el := by
  by_contra hno
  exact byKey_eq_none.mp (Option.eq_none_iff_forall_ne_some.mpr fun el hel => hno ⟨el, hel⟩) hk

end Lookups

/-! ### Elements that are the same -/

section Same

/-- What of an element counts for a comparison. -/
def content (x : Element F) : Element F × Option (Multiset (String × String)) :=
  ({ x with tags := none }, x.tags.map fun tags => (tags : Multiset (String × String)))

lemma sameElement_iff [DecidableEq F] {x y : Element F} :
    sameElement x y = true ↔ content x = content y := by
  rw [sameElement, Bool.and_eq_true, decide_eq_true_eq, content, content, Prod.mk.injEq]
  refine and_congr_right fun _ => ?_
  cases x.tags <;> cases y.tags <;> simp [sameTags]

/-- Lists that are the same one by one have last elements that are. -/
lemma same_getLast [DecidableEq F] {xs ys : List (Element F)}
    (h : List.Forall₂ (fun x y => sameElement x y = true) xs ys) {x y : Element F}
    (hx : xs.getLast? = some x) (hy : ys.getLast? = some y) : sameElement x y = true := by
  have hr := List.rel_reverse h
  rw [← List.head?_reverse] at hx hy
  obtain ⟨xs', hxs⟩ := List.head?_eq_some_iff.mp hx
  obtain ⟨ys', hys⟩ := List.head?_eq_some_iff.mp hy
  rw [hxs, hys] at hr
  exact (List.forall₂_cons.mp hr).1

end Same

/-! ### The actions of the two runs -/

section Runs

variable {host : Host F} {h : HistoryRoot} {a b : PassResult F} {ta tb : ℤ} {augmented : Bool}
  {el : Element F} {x : Action F}

lemma deleteOf_spec (hx : deleteOf host h a b tb augmented el = some x) :
    x.key = el.key ∧ x.kind = .delete ∧ x.key ∉ keysOf b.elements := by
  unfold deleteOf at hx
  split at hx
  · cases hx
  · rename_i hk
    obtain rfl := Option.some.inj hx
    exact ⟨rfl, rfl, hk⟩

variable [DecidableEq F]

lemma changeOf_key (hx : changeOf host h a b ta augmented el = some x) : x.key = el.key := by
  unfold changeOf at hx
  split at hx
  · split at hx <;> exact congrArg Action.key (Option.some.inj hx).symm
  · split at hx
    · exact congrArg Action.key (Option.some.inj hx).symm
    · cases hx

lemma changeOf_created (hk : el.key ∉ keysOf a.elements)
    (hraw : (if augmented then rawAt h ta b.elements a.elements el.key else none) = none) :
    ∃ x, changeOf host h a b ta augmented el = some x ∧ x.kind = .create := by
  refine ⟨⟨.create, el.type, el.id, none, some el⟩, ?_, rfl⟩
  rw [changeOf, byKey_eq_none.mpr hk]
  simp only [hraw]

lemma changeOf_recreated (hk : el.key ∉ keysOf a.elements) (haug : augmented = true)
    (hraw : (rawAt h ta b.elements a.elements el.key).isSome = true) :
    ∃ x, changeOf host h a b ta augmented el = some x ∧ x.kind = .modify := by
  obtain ⟨raw, hraw⟩ := Option.isSome_iff_exists.mp hraw
  refine ⟨⟨.modify, el.type, el.id, some (stubElement host el.type raw false), some el⟩, ?_, rfl⟩
  rw [changeOf, byKey_eq_none.mpr hk]
  simp only [haug, hraw, if_true]

lemma changeOf_known {old : Element F} (hold : byKey a.elements el.key = some old) :
    changeOf host h a b ta augmented el =
      if changed a b el.key old el then some ⟨.modify, el.type, el.id, some old, some el⟩
        else none := by
  rw [changeOf, hold]

lemma mem_buildDiffActions : x ∈ buildDiffActions host h a b ta tb augmented ↔
    (∃ el ∈ firstPerKey Element.key b.elements, changeOf host h a b ta augmented el = some x) ∨
      ∃ el ∈ firstPerKey Element.key a.elements, deleteOf host h a b tb augmented el = some x := by
  rw [buildDiffActions, unseen_nil, unseen_nil, List.mem_append, List.mem_filterMap,
    List.mem_filterMap]

/-- The action for the first element with a key in the second run. -/
lemma mem_of_changeOf {k : Key} (hel : el ∈ firstPerKey Element.key b.elements) (hk : el.key = k)
    {kind : ActionKind} (hx : ∃ x, changeOf host h a b ta augmented el = some x ∧ x.kind = kind) :
    ∃ x ∈ buildDiffActions host h a b ta tb augmented, x.key = k ∧ x.kind = kind := by
  obtain ⟨x, hx, hkind⟩ := hx
  exact ⟨x, mem_buildDiffActions.mpr (.inl ⟨el, hel, hx⟩), (changeOf_key hx).trans hk, hkind⟩

lemma distinct_actions : Distinct Action.key (buildDiffActions host h a b ta tb augmented) := by
  have hb : Distinct Action.key
      ((firstPerKey Element.key b.elements).filterMap (changeOf host h a b ta augmented)) :=
    distinct_firstPerKey.filterMap fun _ _ => changeOf_key
  have ha : Distinct Action.key
      ((firstPerKey Element.key a.elements).filterMap (deleteOf host h a b tb augmented)) :=
    distinct_firstPerKey.filterMap fun _ _ hx => (deleteOf_spec hx).1
  rw [buildDiffActions, unseen_nil, unseen_nil]
  refine distinct_append hb ha fun k hk hk' => ?_
  obtain ⟨x, hx, rfl⟩ := List.mem_map.mp hk
  obtain ⟨y, hy, heq⟩ := List.mem_map.mp hk'
  obtain ⟨el, -, hx⟩ := List.mem_filterMap.mp hx
  obtain ⟨el', hel', hy⟩ := List.mem_filterMap.mp hy
  apply (deleteOf_spec hx).2.2
  rw [← heq, changeOf_key hy]
  exact mem_keysOf_of_first hel'

/-- An element of both runs has no action if and only if its first element in the second run is
the last of the first run and the versions are the same. -/
lemma no_action_iff {k : Key} {old : Element F} (hold : byKey a.elements k = some old)
    (hel : el ∈ firstPerKey Element.key b.elements) (hk : el.key = k) :
    (∀ x ∈ buildDiffActions host h a b ta tb augmented, x.key ≠ k) ↔
      changed a b k old el = false := by
  subst hk
  have hkey := mem_keysOf_of_first hel
  constructor
  · intro hno
    by_contra hc
    rw [Bool.not_eq_false] at hc
    have hx : changeOf host h a b ta augmented el = _ := changeOf_known hold
    rw [hc, if_pos rfl] at hx
    exact hno _ (mem_buildDiffActions.mpr (.inl ⟨el, hel, hx⟩)) rfl
  · rintro hc x hx hkx
    rcases mem_buildDiffActions.mp hx with ⟨el', hel', hx⟩ | ⟨el', -, hx⟩
    · have heq : el' = el := distinct_firstPerKey.eq_of_key hel' hel
        ((changeOf_key hx).symm.trans hkx)
      rw [heq, changeOf_known hold, hc, if_neg Bool.false_ne_true] at hx
      cases hx
    · exact (deleteOf_spec hx).2.2 (hkx ▸ hkey)

/-- The comparison of the code against the two lists. -/
lemma changed_iff_of_same {k : Key} {old last : Element F} (same : SamePrinted a b k)
    (hold : byKey a.elements k = some old) (hlast : (printed b.elements k).getLast? = some last) :
    changed a b k old el = false ↔ sameElement el last = true := by
  have holdLast := same_getLast same.2 (byKey_eq_last a.elements k ▸ hold) hlast
  rw [changed, Bool.or_eq_false_iff, Bool.not_eq_false', decide_eq_false_iff_not, not_not,
    sameElement_iff, sameElement_iff, sameElement_iff.mp holdLast]
  exact ⟨fun hs => hs.2.symm, fun hs => ⟨same.1, hs.symm⟩⟩

section Kinds

variable {k : Key}

lemma exists_create (hkb : k ∈ keysOf b.elements) (hka : k ∉ keysOf a.elements)
    (hno : ¬ (augmented = true ∧ RawExists h ta k)) :
    ∃ x ∈ buildDiffActions host h a b ta tb augmented, x.key = k ∧ x.kind = .create := by
  obtain ⟨el, hel, rfl, -⟩ := exists_first hkb
  refine mem_of_changeOf hel rfl (changeOf_created hka ?_)
  split_ifs with haug
  · rw [← Option.not_isSome_iff_eq_none, rawAt_isSome hkb hka]
    exact fun hr => hno ⟨haug, hr⟩
  · rfl

lemma exists_recreate (hkb : k ∈ keysOf b.elements) (hka : k ∉ keysOf a.elements)
    (haug : augmented = true) (hr : RawExists h ta k) :
    ∃ x ∈ buildDiffActions host h a b ta tb augmented, x.key = k ∧ x.kind = .modify := by
  obtain ⟨el, hel, rfl, -⟩ := exists_first hkb
  exact mem_of_changeOf hel rfl (changeOf_recreated hka haug ((rawAt_isSome hkb hka).mpr hr))

lemma exists_delete (hka : k ∈ keysOf a.elements) (hkb : k ∉ keysOf b.elements) :
    ∃ x ∈ buildDiffActions host h a b ta tb augmented, x.key = k ∧ x.kind = .delete := by
  obtain ⟨el, hel, rfl, -⟩ := exists_first hka
  have hx : deleteOf host h a b tb augmented el = some _ := if_neg hkb
  exact ⟨_, mem_buildDiffActions.mpr (.inr ⟨el, hel, hx⟩), rfl, rfl⟩

lemma exists_modify (hka : k ∈ keysOf a.elements) (hkb : k ∈ keysOf b.elements)
    (hv : a.version k ≠ b.version k) :
    ∃ x ∈ buildDiffActions host h a b ta tb augmented, x.key = k ∧ x.kind = .modify := by
  obtain ⟨old, hold⟩ := exists_last hka
  obtain ⟨el, hel, rfl, -⟩ := exists_first hkb
  have hc : changed a b el.key old el = true := by simp [changed, hv]
  exact mem_of_changeOf hel rfl ⟨_, (changeOf_known hold).trans (if_pos hc), rfl⟩

lemma actions_ordered : ∃ changes deletes, buildDiffActions host h a b ta tb augmented =
    changes ++ deletes ∧
    (changes.map Action.key).Sublist ((firstPerKey Element.key b.elements).map Element.key) ∧
    ∀ x ∈ deletes, x.kind = .delete ∧ x.key ∉ keysOf b.elements := by
  refine ⟨_, _, by rw [buildDiffActions, unseen_nil, unseen_nil], ?_, fun x hx => ?_⟩
  · exact sublist_map_filterMap fun _ _ => changeOf_key
  · obtain ⟨el, -, hx⟩ := List.mem_filterMap.mp hx
    exact (deleteOf_spec hx).2

end Kinds

end Runs

/-- **The actions are those expected if and only if nothing is printed in two ways**: of what both
runs print alike, with the same version, the first element is the last. -/
theorem buildDiffActions_classified_iff [DecidableEq F] (host : Host F) (h : HistoryRoot)
    (a b : PassResult F) (ta tb : ℤ) (augmented : Bool) :
    Classified h a b ta augmented (buildDiffActions host h a b ta tb augmented) ↔
      PrintedAlike a b := by
  constructor
  · intro hc k hka hkb same x y hx hy
    obtain ⟨old, hold⟩ := exists_last hka
    obtain ⟨el, hel, hk, hhead⟩ := exists_first hkb
    obtain rfl := Option.some.inj (hhead.symm.trans hx)
    exact (changed_iff_of_same same hold hy).mp
      ((no_action_iff hold hel hk).mp (hc.unchanged k hka hkb same))
  · intro alike
    refine ⟨distinct_actions, fun k => exists_create, fun k => exists_recreate,
      fun k => exists_delete, fun k => exists_modify, fun k hka hkb same => ?_, actions_ordered⟩
    obtain ⟨old, hold⟩ := exists_last hka
    obtain ⟨last, hlast⟩ := exists_last hkb
    obtain ⟨el, hel, hk, hhead⟩ := exists_first hkb
    rw [byKey_eq_last] at hlast
    rw [no_action_iff hold hel hk, changed_iff_of_same same hold hlast]
    exact alike k hka hkb same el last hhead hlast

/-- A run that prints a node twice: `out ids; out;`. -/
def twice : PassResult ℚ :=
  let set : List (OutRow ℚ) := [{ bareRow .node 1 with
    latE7 := some 450000000, lonE7 := some (-930000000), version := some 1 }]
  executeOut exactHost .nothing set {} (executeOut exactHost .nothing
    set { verbosity := .ids } ⟨[], []⟩)

/-- A query that compares a time with itself finds a node modified that it prints twice. -/
theorem buildDiffActions_twice : ¬ ∀ (h : HistoryRoot) (a b : PassResult ℚ) (ta tb : ℤ)
    (augmented : Bool), Classified h a b ta augmented
    (buildDiffActions exactHost h a b ta tb augmented) := by
  intro hall
  have hc := hall ⟨fun _ => .empty, fun _ => .empty, .empty⟩ twice twice 0 0 false
  have same : SamePrinted twice twice (.node, 1) := ⟨rfl, List.forall₂_same.mpr fun x _ =>
    sameElement_iff.mpr rfl⟩
  refine hc.unchanged (.node, 1) (by decide) (by decide) same _ List.mem_cons_self ?_
  decide

end OsmParquet.DiffActions
